/-
HighJump.Testing.ErrorHandlerTheorems — which callbacks of an
`error_handler` are called, and when.

Errors wait in `handling` only, and one event changes the state at most
twice: out of `handling`, and back into it with the first error that
waited. `processEvent_outcome` says so once, with everything an event does
to the queue and the log, and the order and the number of the calls follow
from it call by call (`Books`).

The calls are in order in every run. That none of them is a call of an
empty function depends on the callers (`Meets`): `match` may be given no
callback, and calls what it was given.
-/
import HighJump.Testing.ErrorHandler
import Mathlib.Tactic.Common

namespace HighJump.Testing.ErrorHandler

open HighJump.Lib

variable {T : Type} (isOk : T → Bool)

/-! ## What a run should look like -/

/-- The errors whose functions were called, in that order. -/
def invocations (log : List (Action T)) : List (ErrEvent T) := log.filterMap Action.cb

/-- An error is being handled from the call of its function until the
machine leaves `handling`. -/
def busy (log : List (Action T)) : Bool :=
  log.foldl (fun b a => a.cb.isSome || (b && a.onTransition.map Prod.fst != some "handling")) false

/-- No empty function is called; what is called was given to a call of
`match`, with that error; functions are called in the order of these
calls, each once; and none is while an error is being handled. -/
structure Orderly (tr : List (Call T)) (log : List (Action T)) : Prop where
  nonempty : ∀ e ∈ invocations log, e.cb = true
  registered : ∀ e ∈ invocations log,
    tr[e.id]? = some (.matchErr e.ec e.cb) ∧ isOk e.ec = false
  inOrder : (invocations log).Pairwise fun e e' => e.id < e'.id
  exclusive : ∀ pre a post, log = pre ++ a :: post → a.cb.isSome = true → busy pre = false

/-- The event reaches no empty function: an error taken up in `idle` or
`succed` has one that is not empty, and so has `next`, the first error
that waits, when `handling` is left for one of these. -/
def Event.Safe (next : Option (Event T)) : State → Event T → Prop
  | .idle, .errEvent e => e.cb = true
  | .succed, .errEvent e => e.cb = true
  | .handling, .finish => ∀ e, next = some (.errEvent e) → e.cb = true
  | .handling, .reset => ∀ e, next = some (.errEvent e) → e.cb = true
  | _, _ => True

/-- The call sends such an event. -/
def Meets (h : Handler T) (c : Call T) : Prop :=
  (c.event isOk h.calls).Safe h.sm.deferred.head? h.sm.state

/-! ## One event -/

/-- What an event does to a state and the errors waiting in it: the state
and the queue it leaves, the actions it adds, and whether the last of them
threw. -/
inductive Outcome : State → List (ErrEvent T) → Event T →
    State → List (ErrEvent T) → List (Action T) → Bool → Prop where
  | dropped {s : State} {q : List (ErrEvent T)} {ev : Event T} (h : react s ev = .drop) :
      Outcome s q ev s q [] false
  | deferred {q : List (ErrEvent T)} {e : ErrEvent T} :
      Outcome .handling q (.errEvent e) .handling (q ++ [e]) [] false
  /-- Neither state is `handling`. -/
  | moved {s dst : State} {ev : Event T} {n : Option (String × String)}
      (h : react s ev = .take ⟨none, n⟩ dst) (hs : s ≠ .handling) (hdst : dst ≠ .handling) :
      Outcome s [] ev dst [] [⟨none, n⟩] false
  | begun {s : State} {e : ErrEvent T} {n : Option (String × String)}
      (h : react s (.errEvent e) = .take ⟨some e, n⟩ .handling) :
      Outcome s [] (.errEvent e) (if e.cb then .handling else s) [] [⟨some e, n⟩] (!e.cb)
  | gaveUp {q : List (ErrEvent T)} {ev : Event T} {dst : String}
      (h : react .handling ev = .take ⟨none, some ("handling", dst)⟩ .failed) :
      Outcome .handling q ev .failed [] [⟨none, some ("handling", dst)⟩] false
  | ended {ev : Event T} {s : State} {dst : String}
      (h : react .handling ev = .take ⟨none, some ("handling", dst)⟩ s) (hs : s ≠ .handling) :
      Outcome .handling [] ev s [] [⟨none, some ("handling", dst)⟩] false
  /-- The first error that waited is next. -/
  | passedOn {e : ErrEvent T} {q : List (ErrEvent T)} {ev : Event T} {s : State} {dst : String}
      {n : Option (String × String)}
      (h : react .handling ev = .take ⟨none, some ("handling", dst)⟩ s)
      (hnext : react s (.errEvent e) = .take ⟨some e, n⟩ .handling) :
      Outcome .handling (e :: q) ev (if e.cb then .handling else s) q
        [⟨none, some ("handling", dst)⟩, ⟨some e, n⟩] (!e.cb)

/-- A machine whose queue holds errors only. -/
def waiting (s : State) (q : List (ErrEvent T)) (log : List (Action T)) (threw : Bool) :
    Machine State (Event T) (Action T) := ⟨s, q.map .errEvent, log, threw⟩

/-- An error is taken up: its function is called, and if it is not empty
the state is `handling`. -/
theorem take_error (s : State) (q : List (ErrEvent T)) (log : List (Action T)) (e : ErrEvent T)
    (n : Option (String × String)) :
    (waiting s q log false).take table ⟨some e, n⟩ .handling =
      waiting (if e.cb then .handling else s) q (log ++ [⟨some e, n⟩]) (!e.cb) := by
  cases hcb : e.cb with
  | true => exact Machine.take_done (by change (!e.cb) = false; rw [hcb]; rfl)
  | false => exact Machine.take_threw (by change (!e.cb) = true; rw [hcb]; rfl)

/-- Errors wait in `handling`. -/
theorem replay_handling (q : List (ErrEvent T)) (log : List (Action T)) (threw : Bool) (n : Nat) :
    (waiting .handling q log threw).replay table n = waiting .handling q log threw := by
  refine Machine.replay_waiting ?_ n
  intro ev hev
  obtain ⟨e, _, rfl⟩ := List.mem_map.mp hev
  rfl

/-- The first error is taken up and the others go on waiting. -/
theorem replay_next {s : State} {e : ErrEvent T} {n : Option (String × String)}
    (h : react s (.errEvent e) = .take ⟨some e, n⟩ .handling) (q : List (ErrEvent T))
    (log : List (Action T)) (k : Nat) :
    (waiting s (e :: q) log false).replay table (k + 1) =
      waiting (if e.cb then .handling else s) q (log ++ [⟨some e, n⟩]) (!e.cb) := by
  have hfront : (waiting s (e :: q) log false).replay table (k + 1) =
      ((waiting s q log false).take table ⟨some e, n⟩ .handling).replay table k :=
    Machine.replay_front h
  rw [hfront, take_error]
  cases hcb : e.cb with
  | true => exact replay_handling q _ _ k
  | false => exact Machine.replay_threw rfl k

theorem replay_failed (q : List (ErrEvent T)) (log : List (Action T)) :
    (waiting .failed q log false).replay table q.length = waiting .failed [] log false := by
  refine Machine.replay_dropped _ rfl ?_ ?_
  · intro ev hev
    obtain ⟨e, _, rfl⟩ := List.mem_map.mp hev
    rfl
  · exact Nat.le_of_eq (List.length_map ..)

/-- An event without a callback, taken: the new state, then the queue. -/
theorem processEvent_take {s dst : State} {ev : Event T} {n : Option (String × String)}
    (h : react s ev = .take ⟨none, n⟩ dst) (q : List (ErrEvent T)) (log : List (Action T)) :
    (waiting s q log false).processEvent table ev =
      if dst = s then waiting dst q (log ++ [⟨none, n⟩]) false
      else (waiting dst q (log ++ [⟨none, n⟩]) false).replay table q.length := by
  have hlen : (waiting s q log false).deferred.length = q.length := List.length_map ..
  have htake : (waiting s q log false).take table ⟨none, n⟩ dst =
      waiting dst q (log ++ [⟨none, n⟩]) false := Machine.take_done rfl
  have hreact : table.react (waiting s q log false).state ev = .take ⟨none, n⟩ dst := h
  rw [Machine.processEvent, hreact]
  simp only [htake, hlen]
  rfl

/-- An event without a callback, taken out of a state in which nothing
waits. -/
theorem processEvent_moved {s dst : State} {ev : Event T} {n : Option (String × String)}
    (h : react s ev = .take ⟨none, n⟩ dst) (log : List (Action T)) :
    (waiting s [] log false).processEvent table ev =
      waiting dst [] (log ++ [⟨none, n⟩]) false := by
  rw [processEvent_take h]
  split <;> rfl

/-- An error, taken up where nothing waits. -/
theorem processEvent_begun {s : State} {e : ErrEvent T} {n : Option (String × String)}
    (h : react s (.errEvent e) = .take ⟨some e, n⟩ .handling) (hs : s ≠ .handling)
    (log : List (Action T)) :
    (waiting s [] log false).processEvent table (.errEvent e) =
      waiting (if e.cb then .handling else s) [] (log ++ [⟨some e, n⟩]) (!e.cb) := by
  have hreact : table.react (waiting s [] log false).state (.errEvent e) =
      .take ⟨some e, n⟩ .handling := h
  rw [Machine.processEvent, hreact]
  simp only [take_error]
  exact if_neg (Ne.symm hs)

/-- `handling` is left for a state that takes errors up. -/
theorem outcome_left {s : State} {ev : Event T} {dst : String} (hs : s ≠ .handling)
    (h : react .handling ev = .take ⟨none, some ("handling", dst)⟩ s)
    (hnext : ∀ e : ErrEvent T, ∃ n, react s (.errEvent e) = .take ⟨some e, n⟩ .handling)
    (q : List (ErrEvent T)) (log : List (Action T)) :
    ∃ s' q' more threw, Outcome .handling q ev s' q' more threw ∧
      (waiting .handling q log false).processEvent table ev =
        waiting s' q' (log ++ more) threw := by
  cases q with
  | nil => exact ⟨s, [], _, false, .ended h hs, processEvent_moved h log⟩
  | cons e q =>
      obtain ⟨n, hn⟩ := hnext e
      refine ⟨_, q, _, _, .passedOn h hn, ?_⟩
      rw [processEvent_take h, if_neg hs, List.length_cons, replay_next hn, List.append_assoc]
      rfl

theorem outcome_gaveUp {ev : Event T} {dst : String}
    (h : react .handling ev = .take ⟨none, some ("handling", dst)⟩ .failed)
    (q : List (ErrEvent T)) (log : List (Action T)) :
    ∃ s' q' more threw, Outcome .handling q ev s' q' more threw ∧
      (waiting .handling q log false).processEvent table ev =
        waiting s' q' (log ++ more) threw := by
  refine ⟨.failed, [], _, false, .gaveUp h, ?_⟩
  rw [processEvent_take h, if_neg State.noConfusion, replay_failed]

theorem outcome_handling (ev : Event T) (q : List (ErrEvent T)) (log : List (Action T)) :
    ∃ s' q' more threw, Outcome .handling q ev s' q' more threw ∧
      (waiting .handling q log false).processEvent table ev =
        waiting s' q' (log ++ more) threw := by
  cases ev with
  | finish => exact outcome_left State.noConfusion rfl (fun e => ⟨_, rfl⟩) q log
  | reset => exact outcome_left State.noConfusion rfl (fun e => ⟨_, rfl⟩) q log
  | fail => exact outcome_gaveUp rfl q log
  | abort => exact outcome_gaveUp rfl q log
  | errEvent e =>
      refine ⟨.handling, q ++ [e], [], false, .deferred, ?_⟩
      have hmap : (q ++ [e]).map Event.errEvent = q.map .errEvent ++ [.errEvent e] :=
        List.map_append
      rw [List.append_nil, waiting, waiting, hmap]
      rfl

/-- Nothing waits in the other states. -/
theorem outcome_elsewhere {s : State} (hs : s ≠ .handling) (ev : Event T)
    (log : List (Action T)) :
    ∃ s' q' more threw, Outcome s [] ev s' q' more threw ∧
      (waiting s [] log false).processEvent table ev = waiting s' q' (log ++ more) threw := by
  have hdropped (h : react s ev = .drop) :
      (waiting s [] log false).processEvent table ev = waiting s [] (log ++ []) false := by
    have htable : table.react (waiting s [] log false).state ev = .drop := h
    rw [Machine.processEvent, htable, List.append_nil]
  have hmoved {n : Option (String × String)} {dst : State}
      (h : react s ev = .take ⟨none, n⟩ dst) (hdst : dst ≠ .handling) :
      ∃ s' q' more threw, Outcome s [] ev s' q' more threw ∧
        (waiting s [] log false).processEvent table ev = waiting s' q' (log ++ more) threw :=
    ⟨dst, [], _, false, .moved h hs hdst, processEvent_moved h log⟩
  cases s with
  | handling => exact absurd rfl hs
  | idle =>
      cases ev with
      | errEvent e => exact ⟨_, [], _, _, .begun rfl, processEvent_begun rfl hs log⟩
      | finish => exact hmoved rfl State.noConfusion
      | fail => exact hmoved rfl State.noConfusion
      | abort => exact hmoved rfl State.noConfusion
      | reset => exact hmoved rfl State.noConfusion
  | succed =>
      cases ev with
      | errEvent e => exact ⟨_, [], _, _, .begun rfl, processEvent_begun rfl hs log⟩
      | finish => exact hmoved rfl State.noConfusion
      | fail => exact ⟨_, _, _, _, .dropped rfl, hdropped rfl⟩
      | abort => exact hmoved rfl State.noConfusion
      | reset => exact hmoved rfl State.noConfusion
  | failed =>
      cases ev with
      | errEvent e => exact ⟨_, _, _, _, .dropped rfl, hdropped rfl⟩
      | finish => exact ⟨_, _, _, _, .dropped rfl, hdropped rfl⟩
      | fail => exact ⟨_, _, _, _, .dropped rfl, hdropped rfl⟩
      | abort => exact ⟨_, _, _, _, .dropped rfl, hdropped rfl⟩
      | reset => exact hmoved rfl State.noConfusion

/-- **What an event does** to a machine on which errors wait in
`handling` only. -/
theorem processEvent_outcome {s : State} {q : List (ErrEvent T)} (hq : q ≠ [] → s = .handling)
    (ev : Event T) (log : List (Action T)) :
    ∃ s' q' more threw, Outcome s q ev s' q' more threw ∧
      (waiting s q log false).processEvent table ev = waiting s' q' (log ++ more) threw := by
  by_cases hs : s = .handling
  · subst hs
    exact outcome_handling ev q log
  · obtain rfl : q = [] := by
      by_contra hne
      exact hs (hq hne)
    exact outcome_elsewhere hs ev log

/-! ## The books -/

/-- Errors in the order of the calls of `match` they came with. -/
structure Registered (tr : List (Call T)) (es : List (ErrEvent T)) : Prop where
  registered : ∀ e ∈ es, tr[e.id]? = some (.matchErr e.ec e.cb) ∧ isOk e.ec = false
  inOrder : es.Pairwise fun e e' => e.id < e'.id

def Exclusive (log : List (Action T)) : Prop :=
  ∀ pre a post, log = pre ++ a :: post → a.cb.isSome = true → busy pre = false

/-- What is known of a machine behind a run: the errors taken up and the
errors waiting are registered in this order, and it is in `handling`
exactly while an error is being handled. -/
structure Books (tr : List (Call T)) (s : State) (q : List (ErrEvent T)) (log : List (Action T))
    (threw : Bool) : Prop where
  waits : threw = false → q ≠ [] → s = .handling
  registered : Registered isOk tr (invocations log ++ q)
  busy_eq : threw = false → busy log = decide (s = .handling)
  exclusive : Exclusive log
  threw_iff : threw = true ↔ ∃ e ∈ invocations log, e.cb = false

section

variable {isOk} {tr : List (Call T)} {es : List (ErrEvent T)} {log : List (Action T)}
  {a : Action T}

theorem invocations_append (log more : List (Action T)) :
    invocations (log ++ more) = invocations log ++ invocations more := List.filterMap_append ..

theorem busy_snoc (log : List (Action T)) (a : Action T) :
    busy (log ++ [a]) =
      (a.cb.isSome || (busy log && a.onTransition.map Prod.fst != some "handling")) := by
  rw [busy, List.foldl_append]
  rfl

theorem Exclusive.snoc (h : Exclusive log) (ha : a.cb.isSome = true → busy log = false) :
    Exclusive (log ++ [a]) := by
  intro pre b post heq hb
  rcases List.eq_nil_or_concat post with rfl | ⟨post, x, rfl⟩
  · obtain ⟨rfl, hab⟩ := List.append_inj' heq rfl
    obtain rfl := (List.cons.inj hab).1
    exact ha hb
  · rw [List.concat_eq_append, ← List.cons_append, ← List.append_assoc] at heq
    obtain ⟨rfl, _⟩ := List.append_inj' heq rfl
    exact h pre b post rfl hb

theorem Registered.lt (h : Registered isOk tr es) {e : ErrEvent T} (he : e ∈ es) :
    e.id < tr.length := by
  have hsome := (h.registered e he).1
  by_contra hle
  rw [List.getElem?_eq_none (Nat.le_of_not_lt hle)] at hsome
  cases hsome

/-- A further call leaves the entries as they are. -/
theorem Registered.call (h : Registered isOk tr es) (c : Call T) :
    Registered isOk (tr ++ [c]) es := by
  refine ⟨fun e he => ?_, h.inOrder⟩
  rw [List.getElem?_append_left (h.lt he)]
  exact h.registered e he

theorem Registered.sublist {es' : List (ErrEvent T)} (h : Registered isOk tr es)
    (hsub : es'.Sublist es) : Registered isOk tr es' :=
  ⟨fun e he => h.registered e (hsub.subset he), h.inOrder.sublist hsub⟩

theorem event_errEvent {c : Call T} {id : Nat} {e : ErrEvent T}
    (h : c.event isOk id = .errEvent e) :
    c = .matchErr e.ec e.cb ∧ isOk e.ec = false ∧ e.id = id := by
  cases c with
  | matchErr err cb =>
      rw [Call.event] at h
      split at h
      · cases h
      · next hok =>
          obtain rfl := Event.errEvent.inj h
          exact ⟨rfl, eq_false_of_ne_true hok, rfl⟩
  | finish => cases h
  | fail => cases h
  | abort => cases h
  | reset => cases h

/-- The error of the call just made goes to the end. -/
theorem Registered.push (h : Registered isOk tr es) {c : Call T} {e : ErrEvent T}
    (he : c.event isOk tr.length = .errEvent e) : Registered isOk (tr ++ [c]) (es ++ [e]) := by
  obtain ⟨hc, hok, hid⟩ := event_errEvent he
  refine ⟨fun e' he' => ?_, ?_⟩
  · rcases List.mem_append.mp he' with he' | he'
    · exact (h.call c).registered e' he'
    · obtain rfl := List.mem_singleton.mp he'
      rw [hid, List.getElem?_concat_length, hc]
      exact ⟨rfl, hok⟩
  · refine List.pairwise_append.mpr ⟨h.inOrder, List.pairwise_singleton _ _, ?_⟩
    intro e' he' e'' he''
    obtain rfl := List.mem_singleton.mp he''
    rw [hid]
    exact h.lt he'

/-- An action without a callback is added to the log. -/
theorem invocations_silent (log : List (Action T)) (n : Option (String × String)) :
    invocations (log ++ [⟨none, n⟩]) = invocations log := by
  rw [invocations_append]
  exact List.append_nil _

theorem invocations_called (log : List (Action T)) (e : ErrEvent T)
    (n : Option (String × String)) :
    invocations (log ++ [⟨some e, n⟩]) = invocations log ++ [e] := invocations_append ..

/-- An error is taken up while none is being handled. -/
theorem Books.takeUp {s : State} {q q' : List (ErrEvent T)} {log : List (Action T)}
    {e : ErrEvent T} {n : Option (String × String)}
    (hreg : Registered isOk tr (invocations log ++ q))
    (hq : q = e :: q') (hbusy : busy log = false) (hexcl : Exclusive log)
    (hthrew : ∀ e ∈ invocations log, e.cb = true) :
    Books isOk tr (if e.cb then .handling else s) q' (log ++ [⟨some e, n⟩]) (!e.cb) := by
  refine ⟨fun ht _ => ?_, ?_, fun ht => ?_, hexcl.snoc fun _ => hbusy, ?_⟩
  · exact if_pos (by simpa using ht)
  · rw [invocations_called, List.append_assoc, List.singleton_append, ← hq]
    exact hreg
  · rw [busy_snoc, if_pos (by simpa using ht)]
    rfl
  · rw [invocations_called]
    constructor
    · intro ht
      exact ⟨e, List.mem_append_right _ (List.mem_singleton.mpr rfl), by simpa using ht⟩
    · rintro ⟨e', he', hcb⟩
      rcases List.mem_append.mp he' with he' | he'
      · exact absurd (hthrew e' he') (by rw [hcb]; exact Bool.false_ne_true)
      · obtain rfl := List.mem_singleton.mp he'
        rw [hcb]
        rfl

/-- An action without a callback leaves nothing being handled. -/
theorem Books.silent {s : State} {q : List (ErrEvent T)} {n : Option (String × String)}
    (hs : s ≠ .handling) (hreg : Registered isOk tr (invocations log ++ q))
    (hbusy : busy log = true → n.map Prod.fst = some "handling") (hexcl : Exclusive log)
    (hthrew : ∀ e ∈ invocations log, e.cb = true) :
    busy (log ++ [⟨none, n⟩]) = false ∧ Exclusive (log ++ [⟨none, n⟩]) ∧
      Books isOk tr s [] (log ++ [⟨none, n⟩]) false := by
  have hidle : busy (log ++ [⟨none, n⟩]) = false := by
    rw [busy_snoc]
    cases hb : busy log with
    | false => rfl
    | true => rw [hbusy hb]; rfl
  have hexcl' : Exclusive (log ++ [⟨none, n⟩]) := hexcl.snoc fun h => Bool.noConfusion h
  refine ⟨hidle, hexcl', fun _ h => absurd rfl h, ?_, fun _ => ?_, hexcl', ?_⟩
  · rw [invocations_silent, List.append_nil]
    exact hreg.sublist (List.sublist_append_left _ _)
  · rw [hidle, decide_eq_false hs]
  · rw [invocations_silent]
    refine ⟨fun h => Bool.noConfusion h, ?_⟩
    rintro ⟨e, he, hcb⟩
    exact absurd (hthrew e he) (by rw [hcb]; exact Bool.false_ne_true)

theorem Books.nonempty {s : State} {q : List (ErrEvent T)} (h : Books isOk tr s q log false) :
    ∀ e ∈ invocations log, e.cb = true := by
  intro e he
  by_contra hcb
  exact Bool.false_ne_true (h.threw_iff.mpr ⟨e, he, eq_false_of_ne_true hcb⟩)

/-- **One call keeps the books.** -/
theorem Books.outcome {s s' : State} {q q' : List (ErrEvent T)} {more : List (Action T)}
    {c : Call T} {threw : Bool} (h : Books isOk tr s q log false)
    (ho : Outcome s q (c.event isOk tr.length) s' q' more threw) :
    Books isOk (tr ++ [c]) s' q' (log ++ more) threw := by
  have hbusy := h.busy_eq rfl
  have hreg := h.registered.call c
  generalize hev : c.event isOk tr.length = ev at ho
  cases ho with
  | dropped _ =>
      rw [List.append_nil]
      exact ⟨h.waits, hreg, h.busy_eq, h.exclusive, h.threw_iff⟩
  | deferred =>
      rw [List.append_nil]
      refine ⟨fun _ _ => rfl, ?_, h.busy_eq, h.exclusive, h.threw_iff⟩
      rw [← List.append_assoc]
      exact h.registered.push hev
  | moved _ hs hdst =>
      rw [decide_eq_false hs] at hbusy
      refine (Books.silent hdst hreg (fun hb => ?_) h.exclusive h.nonempty).2.2
      rw [hbusy] at hb
      cases hb
  | begun hreact =>
      have hs : s ≠ .handling := by
        rintro rfl
        cases hreact
      rw [decide_eq_false hs] at hbusy
      have hpush := h.registered.push hev
      rw [List.append_nil] at hpush
      exact Books.takeUp hpush rfl hbusy h.exclusive h.nonempty
  | gaveUp _ =>
      exact (Books.silent State.noConfusion hreg (fun _ => rfl) h.exclusive h.nonempty).2.2
  | ended _ hs =>
      exact (Books.silent hs hreg (fun _ => rfl) h.exclusive h.nonempty).2.2
  | @passedOn e q _ mid dst n hreact hnext =>
      have hmid : mid ≠ .handling := by
        rintro rfl
        cases hnext
      obtain ⟨hidle, hexcl, _⟩ :=
        Books.silent (n := some ("handling", dst)) hmid hreg (fun _ => rfl) h.exclusive h.nonempty
      have hsplit : log ++ [⟨none, some ("handling", dst)⟩, ⟨some e, n⟩] =
          log ++ [⟨none, some ("handling", dst)⟩] ++ [⟨some e, n⟩] := by
        rw [List.append_assoc]
        rfl
      rw [hsplit]
      refine Books.takeUp ?_ rfl hidle hexcl ?_
      · rw [invocations_silent]
        exact hreg
      · rw [invocations_silent]
        exact h.nonempty

/-- A step throws exactly if it is not safe. -/
theorem Outcome.threw_iff {s s' : State} {q q' : List (ErrEvent T)} {ev : Event T}
    {more : List (Action T)} {threw : Bool} (ho : Outcome s q ev s' q' more threw) :
    threw = false ↔ ev.Safe (q.map Event.errEvent).head? s := by
  cases ho with
  | dropped h =>
      refine iff_of_true rfl ?_
      cases s <;> cases ev <;> trivial
  | deferred => exact iff_of_true rfl trivial
  | moved h hs _ =>
      refine iff_of_true rfl ?_
      cases s <;> cases ev <;> first | trivial | cases h
  | @begun _ e _ h =>
      rw [Bool.not_eq_false']
      cases s <;> first | exact Iff.rfl | cases h
  | gaveUp h =>
      refine iff_of_true rfl ?_
      cases ev <;> first | trivial | cases h
  | ended h _ =>
      refine iff_of_true rfl ?_
      cases ev <;> first | trivial | exact nofun
  | @passedOn e q _ mid dst n h hnext =>
      have hfirst : (∀ e', (some (Event.errEvent e) : Option (Event T)) = some (.errEvent e') →
          e'.cb = true) ↔ e.cb = true := by
        constructor
        · exact fun hall => hall e rfl
        · intro hcb e' he'
          rw [← Event.errEvent.inj (Option.some.inj he')]
          exact hcb
      rw [Bool.not_eq_false']
      cases ev with
      | finish => exact hfirst.symm
      | reset => exact hfirst.symm
      | errEvent e => cases h
      | fail => cases h; cases hnext
      | abort => cases h; cases hnext

end

/-! ## Runs -/

theorem books_new : Books isOk [] .idle [] [] false where
  waits _ h := absurd rfl h
  registered := ⟨fun e he => absurd he List.not_mem_nil, List.Pairwise.nil⟩
  busy_eq _ := rfl
  exclusive pre a post h := by
    rw [eq_comm, List.append_eq_nil_iff] at h
    cases h.2
  threw_iff := ⟨fun h => Bool.noConfusion h, fun ⟨e, he, _⟩ => absurd he List.not_mem_nil⟩

/-- A machine with its books. -/
structure InBooks (tr : List (Call T)) (h : Handler T) (s : State) (q : List (ErrEvent T))
    (log : List (Action T)) (threw : Bool) : Prop where
  sm : h.sm = waiting s q log threw
  calls : h.calls = tr.length
  books : Books isOk tr s q log threw

variable {isOk}

/-- A call on a machine that has not thrown, with what it came to. -/
theorem InBooks.call {tr : List (Call T)} {h : Handler T} {s : State} {q : List (ErrEvent T)}
    {log : List (Action T)} (hb : InBooks isOk tr h s q log false) (c : Call T) :
    ∃ s' q' more threw, InBooks isOk (tr ++ [c]) (h.call isOk c) s' q' (log ++ more) threw ∧
      (threw = false ↔ Meets isOk h c) := by
  obtain ⟨s', q', more, threw, ho, heq⟩ :=
    processEvent_outcome (hb.books.waits rfl) (c.event isOk h.calls) log
  refine ⟨s', q', more, threw, ⟨?_, ?_, ?_⟩, ?_⟩
  · rw [Handler.call, hb.sm]
    exact heq
  · rw [Handler.call, hb.calls, List.length_append]
    rfl
  · exact hb.books.outcome (hb.calls ▸ ho)
  · rw [Meets, hb.sm]
    exact ho.threw_iff

theorem run_inBooks {tr : List (Call T)} {h : Handler T} (hr : (handlerLts isOk).Run tr h) :
    ∃ s q log threw, InBooks isOk tr h s q log threw := by
  refine Lts.Run.invariant (I := fun tr h => ∃ s q log threw, InBooks isOk tr h s q log threw)
    ?_ ?_ hr
  · rintro h rfl
    exact ⟨_, _, _, _, rfl, rfl, books_new isOk⟩
  · rintro tr h c h' _ ⟨s, q, log, threw, hb⟩ ⟨hthrew, rfl⟩
    obtain rfl : threw = false := by
      rw [hb.sm] at hthrew
      exact hthrew
    obtain ⟨s', q', more, threw', hb', _⟩ := hb.call c
    exact ⟨s', q', _, threw', hb'⟩

/-- A run throws exactly if one of its calls reaches an empty function. -/
theorem run_threw_iff {tr : List (Call T)} {h : Handler T} (hr : (handlerLts isOk).Run tr h) :
    h.sm.threw = false ↔ ((handlerLts isOk).guarded (Meets isOk)).Run tr h := by
  have hmeets : ∀ {tr : List (Call T)} {h : Handler T} (c : Call T),
      (handlerLts isOk).Run tr h → h.sm.threw = false →
      ((h.call isOk c).sm.threw = false ↔ Meets isOk h c) := by
    intro tr h c hr hthrew
    obtain ⟨s, q, log, threw, hb⟩ := run_inBooks hr
    obtain rfl : threw = false := by
      rw [hb.sm] at hthrew
      exact hthrew
    obtain ⟨s', q', more, threw', hb', hiff⟩ := hb.call c
    rw [hb'.sm]
    exact hiff
  constructor
  · intro hfalse
    refine Lts.Run.guarded_of_back (I := fun h => h.sm.threw = false) ?_ hr hfalse
    rintro tr h c h' hr' ⟨hthrew, rfl⟩ hfalse'
    exact ⟨(hmeets c hr' hthrew).mp hfalse', hthrew⟩
  · intro hg
    cases hg with
    | start hi =>
        obtain rfl : h = .new := hi
        rfl
    | snoc hg hs =>
        obtain ⟨hm, hthrew, rfl⟩ := hs
        exact (hmeets _ hg.unguarded hthrew).mpr hm

/-- **The callbacks are called in order, exactly when** no call of the run
reaches an empty function. -/
theorem run_orderly_iff {tr : List (Call T)} {h : Handler T}
    (hr : (handlerLts isOk).Run tr h) :
    Orderly isOk tr h.sm.log ↔ ((handlerLts isOk).guarded (Meets isOk)).Run tr h := by
  obtain ⟨s, q, log, threw, hb⟩ := run_inBooks hr
  have hreg := hb.books.registered.sublist (List.sublist_append_left (invocations log) q)
  have hiff := run_threw_iff hr
  rw [← hiff, hb.sm]
  change Orderly isOk tr log ↔ threw = false
  constructor
  · intro ho
    by_contra hthrew
    obtain ⟨e, he, hcb⟩ := hb.books.threw_iff.mp (eq_true_of_ne_false hthrew)
    rw [ho.nonempty e he] at hcb
    cases hcb
  · rintro rfl
    exact ⟨hb.books.nonempty, hreg.registered, hreg.inOrder, hb.books.exclusive⟩

/-! ## Two handlers -/

/-- Errors are nonneg numbers. -/
def nonneg (n : Int) : Bool := 0 ≤ n

/-- An error that waits is taken up when the one before it is done. -/
theorem run_orderly_deferred :
    ∃ h : Handler Int, (handlerLts nonneg).Run
        ([.matchErr (-1) true] ++ [.matchErr (-2) true] ++ [.finish]) h ∧
      Orderly nonneg ([.matchErr (-1) true] ++ [.matchErr (-2) true] ++ [.finish]) h.sm.log := by
  have hfirst : (handlerLts nonneg).Run [.matchErr (-1) true]
      (Handler.new.call nonneg (.matchErr (-1) true)) := .snoc (.start rfl) ⟨rfl, rfl⟩
  have hsecond := hfirst.snoc (a := .matchErr (-2) true) ⟨rfl, rfl⟩
  have hrun := hsecond.snoc (a := .finish) ⟨rfl, rfl⟩
  exact ⟨_, hrun, (run_orderly_iff hrun).mpr ((run_threw_iff hrun).mp rfl)⟩

/-- `match(err)` without a callback: an empty function is called. -/
theorem run_empty_callback :
    ∃ h : Handler Int, (handlerLts nonneg).Run [.matchErr (-1) false] h ∧
      ¬ Orderly nonneg [.matchErr (-1) false] h.sm.log := by
  refine ⟨Handler.new.call nonneg (.matchErr (-1) false), .snoc (.start rfl) ⟨rfl, rfl⟩, ?_⟩
  intro ho
  have hcb := ho.nonempty ⟨0, -1, false⟩ (List.mem_singleton.mpr rfl)
  cases hcb

end HighJump.Testing.ErrorHandler
