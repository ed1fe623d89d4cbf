/-
HighJump.Db.TransGuard — `db_conn::trans_guard` of `hj/db/db_conn.hpp`,
from its constructor to its destructor.

The connection is any state machine that answers `begin`, `commit` and
`rollback`, each with an error or without one; between two calls on the
guard its user may do anything with it. What the guard sends and what it
answers is written down in one log, in the order it happens.

`_is_active` is false behind a failed `begin` and behind a successful
`COMMIT` alike, and `commit` answers success in both cases. So the guard
tells the truth exactly when `begin` succeeded or nobody asks
(`life_truthful_iff`); the bracketing of the transaction itself is right
in every life (`life_bracketed`).
-/
import Mathlib.Tactic.Common

namespace HighJump.Db.Transaction

/-! ## The guard -/

/-- The virtual functions the guard calls; `none` is an `err_t` without
an error. -/
structure DbConn (σ ε : Type) where
  begin : σ → Option ε × σ
  commit : σ → Option ε × σ
  rollback : σ → Option ε × σ

/-- What goes to the connection. -/
inductive Cmd where
  | begin
  | commit
  | rollback
  deriving DecidableEq, Repr

/-- A command sent and what came back, or the answer of `commit()`. -/
inductive Event (ε : Type) where
  | sent (cmd : Cmd) (ec : Option ε)
  | answered (ec : Option ε)
  deriving DecidableEq, Repr

/-- The guard, the connection behind it and the log. -/
structure TransGuard (σ ε : Type) where
  conn : σ
  isActive : Bool
  log : List (Event ε)

variable {σ ε : Type} (db : DbConn σ ε)

/-- The constructor. -/
def TransGuard.new (conn : σ) : TransGuard σ ε :=
  let (ec, conn) := db.begin conn
  { conn, isActive := ec.isNone, log := [.sent .begin ec] }

def TransGuard.commit (g : TransGuard σ ε) : TransGuard σ ε :=
  if !g.isActive then { g with log := g.log ++ [.answered none] }
  else
    let (ec, conn) := db.commit g.conn
    { conn, isActive := ec.isSome, log := g.log ++ [.sent .commit ec, .answered ec] }

/-- The destructor. -/
def TransGuard.destroy (g : TransGuard σ ε) : TransGuard σ ε :=
  if g.isActive then
    let (ec, conn) := db.rollback g.conn
    { g with conn, log := g.log ++ [.sent .rollback ec] }
  else g

/-- What the user does while the guard lives: a call of `commit`, or
anything else on the connection. -/
inductive Call (σ : Type) where
  | commit
  | other (f : σ → σ)

def Call.isCommit : Call σ → Bool
  | .commit => true
  | .other _ => false

def TransGuard.call (g : TransGuard σ ε) : Call σ → TransGuard σ ε
  | .commit => g.commit db
  | .other f => { g with conn := f g.conn }

/-- The calls of a life, before the destructor. -/
def calls (conn : σ) (cs : List (Call σ)) : TransGuard σ ε :=
  cs.foldl (TransGuard.call db) (.new db conn)

/-- A whole life: the log it leaves. -/
def life (conn : σ) (cs : List (Call σ)) : List (Event ε) := ((calls db conn cs).destroy db).log

/-! ## What the log should say -/

/-- `e` happens, and happens once. -/
def Once (e : Event ε) (log : List (Event ε)) : Prop :=
  ∃ pre post, log = pre ++ e :: post ∧ e ∉ pre ∧ e ∉ post

/-- The first `commit()` answers success only if `begin` and a `COMMIT`
have succeeded by then. -/
def FirstAnswer (log : List (Event ε)) : Prop :=
  ∀ pre post, log = pre ++ .answered none :: post → (∀ ec, Event.answered ec ∉ pre) →
    .sent .begin none ∈ pre ∧ .sent .commit none ∈ pre

/-- A transaction that was begun is ended by one successful `COMMIT` and
no `ROLLBACK`, or by one `ROLLBACK` as the last thing that happens; one
that was not is left alone. -/
structure Bracketed (log : List (Event ε)) : Prop where
  ended : .sent .begin none ∈ log →
    (Once (.sent .commit none) log ∧ ∀ ec, Event.sent .rollback ec ∉ log) ∨
      (.sent .commit none ∉ log ∧ ∃ pre ec, log = pre ++ [.sent .rollback ec] ∧
        ∀ ec', Event.sent .rollback ec' ∉ pre)
  unbegun : .sent .begin none ∉ log →
    ∀ ec, Event.sent .commit ec ∉ log ∧ Event.sent .rollback ec ∉ log

structure Truthful (log : List (Event ε)) : Prop where
  firstAnswer : FirstAnswer log
  bracketed : Bracketed log

/-! ## One call -/

section

variable {e : Event ε} {log more : List (Event ε)}

theorem Once.append (h : Once e log) (hmore : e ∉ more) : Once e (log ++ more) := by
  obtain ⟨pre, post, rfl, hpre, hpost⟩ := h
  refine ⟨pre, post ++ more, by rw [List.append_assoc, List.cons_append], hpre, ?_⟩
  rw [List.mem_append]
  exact fun h => h.elim hpost hmore

theorem once_append_cons (hlog : e ∉ log) (hmore : e ∉ more) : Once e (log ++ e :: more) :=
  ⟨log, more, rfl, hlog, hmore⟩

/-- Once a truthful answer is in, later ones do not matter. -/
theorem firstAnswer_append (hb : .sent .begin none ∈ log) (hc : .sent .commit none ∈ log)
    (h : FirstAnswer log) : FirstAnswer (log ++ more) := by
  intro pre post heq hfirst
  rcases List.append_eq_append_iff.mp heq with ⟨a, rfl, _⟩ | ⟨b, rfl, hb'⟩
  · exact ⟨List.mem_append_left a hb, List.mem_append_left a hc⟩
  · cases b with
    | nil => rw [List.append_nil] at hb hc; exact ⟨hb, hc⟩
    | cons x b =>
        obtain ⟨rfl, _⟩ := List.cons.inj hb'
        exact h pre b rfl hfirst

/-- Nothing was answered with success. -/
theorem firstAnswer_of_notMem (h : .answered none ∉ log) : FirstAnswer log := by
  rintro pre post rfl _
  exact absurd (List.mem_append_right pre (List.mem_cons_self ..)) h

/-- What is added answers nothing with success. -/
theorem firstAnswer_append_other (hmore : .answered none ∉ more) (h : FirstAnswer log) :
    FirstAnswer (log ++ more) := by
  intro pre post heq hfirst
  rcases List.append_eq_append_iff.mp heq with ⟨a, rfl, ha⟩ | ⟨b, rfl, hb'⟩
  · refine absurd ?_ hmore
    rw [ha]
    exact List.mem_append_right a (List.mem_cons_self ..)
  · cases b with
    | nil =>
        refine absurd ?_ hmore
        rw [List.nil_append] at hb'
        rw [← hb']
        exact List.mem_cons_self ..
    | cons x b =>
        obtain ⟨rfl, _⟩ := List.cons.inj hb'
        exact h pre b rfl hfirst

end

/-- The guard while it lives: `begin` failed and nothing was sent behind
it; or the transaction is open; or it was committed. -/
inductive Phase (g : TransGuard σ ε) : Prop where
  | unbegun : g.isActive = false → .sent .begin none ∉ g.log →
      (∀ ec, Event.sent .commit ec ∉ g.log ∧ Event.sent .rollback ec ∉ g.log) → Phase g
  | opened : g.isActive = true → .sent .begin none ∈ g.log → .sent .commit none ∉ g.log →
      (∀ ec, Event.sent .rollback ec ∉ g.log) → FirstAnswer g.log → Phase g
  | committed : g.isActive = false → .sent .begin none ∈ g.log →
      Once (.sent .commit none) g.log → (∀ ec, Event.sent .rollback ec ∉ g.log) →
      FirstAnswer g.log → Phase g

variable {db}

theorem Phase.new (conn : σ) : Phase (.new db conn : TransGuard σ ε) := by
  rw [TransGuard.new]
  rcases hb : db.begin conn with ⟨ec, conn'⟩
  cases ec with
  | some e => exact .unbegun rfl (by simp) (by simp)
  | none =>
      exact .opened rfl (by simp) (by simp) (by simp) (firstAnswer_of_notMem (by simp))

theorem Once.mem {e : Event ε} {log : List (Event ε)} (h : Once e log) : e ∈ log := by
  obtain ⟨pre, post, rfl, _, _⟩ := h
  exact List.mem_append_right pre (List.mem_cons_self ..)

/-- **One commit keeps the phase in order.** -/
theorem Phase.commit {g : TransGuard σ ε} (h : Phase g) : Phase (g.commit db) := by
  cases h with
  | unbegun ha hb hc =>
      rw [TransGuard.commit, if_pos (by rw [ha]; rfl)]
      exact .unbegun ha (by simpa using hb) (by simpa using hc)
  | committed ha hb hc hr hf =>
      rw [TransGuard.commit, if_pos (by rw [ha]; rfl)]
      exact .committed ha (List.mem_append_left _ hb) (hc.append (by simp)) (by simpa using hr)
        (firstAnswer_append hb hc.mem hf)
  | opened ha hb hc hr hf =>
      rw [TransGuard.commit, if_neg (by rw [ha]; exact Bool.false_ne_true)]
      rcases hcommit : db.commit g.conn with ⟨ec, conn'⟩
      cases ec with
      | some e =>
          exact .opened rfl (List.mem_append_left _ hb) (by simpa using hc) (by simpa using hr)
            (firstAnswer_append_other (by simp) hf)
      | none =>
          have hlog : g.log ++ [.sent .commit none, .answered none] =
              (g.log ++ [.sent .commit none]) ++ [Event.answered none] := by
            rw [List.append_assoc]
            rfl
          refine .committed rfl (List.mem_append_left _ hb) (once_append_cons hc (by simp))
            (by simpa using hr) ?_
          change FirstAnswer (g.log ++ [.sent .commit none, .answered none])
          rw [hlog]
          exact firstAnswer_append (List.mem_append_left _ hb)
            (List.mem_append_right _ (List.mem_singleton.mpr rfl))
            (firstAnswer_append_other (by simp) hf)

theorem Phase.calls (conn : σ) (cs : List (Call σ)) :
    Phase (calls db conn cs : TransGuard σ ε) := by
  have hfold : ∀ (cs : List (Call σ)) (g : TransGuard σ ε), Phase g →
      Phase (cs.foldl (TransGuard.call db) g) := by
    intro cs
    induction cs with
    | nil => exact fun g hg => hg
    | cons c cs ih =>
        intro g hg
        refine ih _ ?_
        cases c with
        | commit => exact hg.commit
        | other f =>
            -- the guard sees nothing of it
            cases hg with
            | unbegun ha hb hc => exact .unbegun ha hb hc
            | opened ha hb hc hr hf => exact .opened ha hb hc hr hf
            | committed ha hb hc hr hf => exact .committed ha hb hc hr hf
  exact hfold cs _ (.new conn)

/-! ## A whole life -/

/-- **Every transaction is bracketed**, whatever the connection answers. -/
theorem life_bracketed (conn : σ) (cs : List (Call σ)) : Bracketed (life db conn cs) := by
  rw [life]
  have hphase : Phase (calls db conn cs) := .calls conn cs
  cases hphase with
  | unbegun ha hb hc =>
      rw [TransGuard.destroy, if_neg (by rw [ha]; exact Bool.false_ne_true)]
      exact ⟨fun h => absurd h hb, fun _ => hc⟩
  | committed ha hb hc hr hf =>
      rw [TransGuard.destroy, if_neg (by rw [ha]; exact Bool.false_ne_true)]
      exact ⟨fun _ => .inl ⟨hc, hr⟩, fun h => absurd hb h⟩
  | opened ha hb hc hr hf =>
      rw [TransGuard.destroy, if_pos ha]
      refine ⟨fun _ => .inr ⟨by simpa using hc, _, _, rfl, hr⟩, fun h => ?_⟩
      exact absurd (List.mem_append_left _ hb) h

theorem begun_of_begin {conn : σ} (h : (db.begin conn).1 = none) :
    .sent .begin none ∈ (TransGuard.new db conn : TransGuard σ ε).log := by
  rw [TransGuard.new]
  simp [h]

/-- No call takes anything out of the log. -/
theorem log_subset_calls (conn : σ) (cs : List (Call σ)) :
    ∀ e ∈ (TransGuard.new db conn : TransGuard σ ε).log, e ∈ (calls db conn cs).log := by
  have hfold : ∀ (cs : List (Call σ)) (g : TransGuard σ ε), ∀ e ∈ g.log,
      e ∈ (cs.foldl (TransGuard.call db) g).log := by
    intro cs
    induction cs with
    | nil => exact fun g e he => he
    | cons c cs ih =>
        intro g e he
        refine ih _ e ?_
        cases c with
        | other f => exact he
        | commit =>
            rw [TransGuard.call, TransGuard.commit]
            split <;> exact List.mem_append_left _ he
  exact hfold cs _

theorem life_firstAnswer {conn : σ} {cs : List (Call σ)} (h : (db.begin conn).1 = none) :
    FirstAnswer (life db conn cs) := by
  have hbegun := log_subset_calls conn cs _ (begun_of_begin h)
  rw [life]
  have hphase : Phase (calls db conn cs) := .calls conn cs
  cases hphase with
  | unbegun ha hb hc => exact absurd hbegun hb
  | committed ha hb hc hr hf =>
      rw [TransGuard.destroy, if_neg (by rw [ha]; exact Bool.false_ne_true)]
      exact hf
  | opened ha hb hc hr hf =>
      rw [TransGuard.destroy, if_pos ha]
      exact firstAnswer_append_other (by simp) hf

/-- Behind a failed `begin` nothing is sent, and every `commit` answers
success. -/
theorem life_of_failed {conn : σ} {e : ε} (h : (db.begin conn).1 = some e) (cs : List (Call σ)) :
    life db conn cs = .sent .begin (some e) ::
      (cs.filter Call.isCommit).map fun _ => .answered none := by
  have hfold : ∀ (cs : List (Call σ)) (g : TransGuard σ ε), g.isActive = false →
      (cs.foldl (TransGuard.call db) g).isActive = false ∧
        (cs.foldl (TransGuard.call db) g).log =
          g.log ++ (cs.filter Call.isCommit).map fun _ => .answered none := by
    intro cs
    induction cs with
    | nil => exact fun g hg => ⟨hg, (List.append_nil _).symm⟩
    | cons c cs ih =>
        intro g hg
        cases c with
        | other f => exact ih { g with conn := f g.conn } hg
        | commit =>
            have hcommit : g.commit db = { g with log := g.log ++ [.answered none] } := by
              rw [TransGuard.commit, if_pos (by rw [hg]; rfl)]
            obtain ⟨hactive, hlog⟩ := ih (g.commit db) (by rw [hcommit]; exact hg)
            refine ⟨hactive, hlog.trans ?_⟩
            rw [hcommit, List.append_assoc]
            rfl
  have hnew : (TransGuard.new db conn : TransGuard σ ε).isActive = false ∧
      (TransGuard.new db conn : TransGuard σ ε).log = [.sent .begin (some e)] := by
    simp [TransGuard.new, h]
  obtain ⟨hactive, hlog⟩ := hfold cs _ hnew.1
  have hcalls : (calls db conn cs).isActive = false := hactive
  rw [life, TransGuard.destroy, if_neg (by rw [hcalls]; exact Bool.false_ne_true)]
  exact hlog.trans (by rw [hnew.2]; rfl)

/-- **The guard tells the truth exactly when** its `begin` succeeded or
`commit` is never called on it. -/
theorem life_truthful_iff (db : DbConn σ ε) (conn : σ) (cs : List (Call σ)) :
    Truthful (life db conn cs) ↔ (db.begin conn).1 = none ∨ Call.commit ∉ cs := by
  constructor
  · intro h
    cases hb : (db.begin conn).1 with
    | none => exact .inl rfl
    | some e =>
        refine .inr fun hmem => ?_
        -- the first call answers success behind nothing but the failed `begin`
        have hmem' : Call.commit ∈ cs.filter Call.isCommit :=
          List.mem_filter.mpr ⟨hmem, rfl⟩
        obtain ⟨c, rest, hsplit⟩ := List.exists_cons_of_ne_nil (List.ne_nil_of_mem hmem')
        have hlog := life_of_failed hb cs
        rw [hsplit, List.map_cons] at hlog
        obtain ⟨hbegin, _⟩ := h.firstAnswer [.sent .begin (some e)] _ hlog (by simp)
        simp at hbegin
  · intro h
    refine ⟨?_, life_bracketed conn cs⟩
    cases hb : (db.begin conn).1 with
    | none => exact life_firstAnswer hb
    | some e =>
        have hnone : cs.filter Call.isCommit = [] := by
          refine List.filter_eq_nil_iff.mpr fun c hc => ?_
          cases c with
          | other f => exact Bool.false_ne_true
          | commit => exact absurd hc (h.resolve_left (by rw [hb]; exact Option.some_ne_none e))
        rw [life_of_failed hb, hnone]
        exact firstAnswer_of_notMem (by simp)

/-- A connection on which nothing works. -/
def broken : DbConn Unit Nat where
  begin _ := (some 1, ())
  commit _ := (some 1, ())
  rollback _ := (some 1, ())

/-- `begin` fails, and the first `commit()` answers success. -/
theorem life_untruthful : ¬ Truthful (life broken () [.commit]) := by
  intro h
  obtain ⟨hbegin, _⟩ := h.firstAnswer [.sent .begin (some 1)] [] rfl (by simp)
  simp at hbegin

end HighJump.Db.Transaction
