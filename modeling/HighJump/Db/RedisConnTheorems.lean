/-
HighJump.Db.RedisConnTheorems — the connections keep the protocol of
hiredis, and send nothing on a context whose `err` is set.

A command is `Quiet`: it leaves the context with its connection, it is a
session with it, and it sends only while `err` is not set. `connect` is
closing, opening and at most two such commands. `Flow` follows `err`
through what they send, and `flow_sends` carries the order of the sends
from call to call.
-/
import HighJump.Db.RedisConn
import HighJump.Db.RedisTheorems

namespace HighJump.Db.RedisConn

open HighJump.Lib HighJump.Lib.Handles
open HighJump.Db.Redis (Bytes ValIn)

variable {impl : Impl} {α : Type} {conn : Conn} {h c : Nat} {a : Answer}
  {cmdTmpl : Bytes} {args : List ValIn}

/-! ## What is sent -/

/-- From one `err` to another by these sends on `h`: each of them finds it
clear. -/
def Flow (h : Nat) : Bool → List (Nat × Bool) → Bool → Prop
  | e, [], e' => e = e'
  | e, p :: sends, e' => e = false ∧ p.1 = h ∧ Flow h p.2 sends e'

theorem Flow.append {e₁ e₂ e₃ : Bool} {sends sends' : List (Nat × Bool)}
    (hs : Flow h e₁ sends e₂) (hs' : Flow h e₂ sends' e₃) : Flow h e₁ (sends ++ sends') e₃ := by
  induction sends generalizing e₁ with
  | nil =>
    obtain rfl : e₁ = e₂ := hs
    exact hs'
  | cons p sends ih => exact ⟨hs.1, hs.2.1, ih hs.2.2⟩

theorem Flow.ctx {e e' : Bool} {sends : List (Nat × Bool)} (hs : Flow h e sends e') :
    ∀ p ∈ sends, p.1 = h := by
  induction sends generalizing e with
  | nil => simp
  | cons p sends ih =>
    intro q hq
    rcases List.mem_cons.1 hq with rfl | hq
    · exact hs.2.1
    · exact ih hs.2.2 q hq

/-- No command is sent on a context behind one at which hiredis set its
`err`. -/
def Ordered (sends : List (Nat × Bool)) : Prop :=
  sends.Pairwise fun p q => p.2 = true → q.1 ≠ p.1

theorem flow_sends {e e' : Bool} {sends more : List (Nat × Bool)} (hs : Ordered sends)
    (he : (h, true) ∈ sends → e = true) (hflow : Flow h e more e') :
    Ordered (sends ++ more) ∧ ((h, true) ∈ sends ++ more → e' = true) := by
  induction more generalizing sends e with
  | nil =>
    obtain rfl : e = e' := hflow
    simpa using ⟨hs, he⟩
  | cons p more ih =>
    obtain ⟨rfl, rfl, hrest⟩ := hflow
    have hclear : (p.1, true) ∉ sends := fun hmem => by simpa using he hmem
    have hnext : Ordered (sends ++ [p]) := by
      refine List.pairwise_append.2 ⟨hs, by simp, ?_⟩
      intro q hq x hx hfail
      obtain rfl : x = p := by simpa using hx
      intro heq
      exact hclear (by rw [heq, ← hfail]; exact hq)
    have hp : (p.1, true) ∈ sends ++ [p] → p.2 = true := by
      intro hmem
      rcases List.mem_append.1 hmem with hmem | hmem
      · exact absurd hmem hclear
      · rw [← List.mem_singleton.1 hmem]
    simpa using ih hnext hp hrest

/-! ## Commands -/

/-- What a command on the context `h` does. -/
structure Quiet (conn : Conn) (h : Nat) (r : After α) : Prop where
  ctx : r.conn.ctx = conn.ctx
  session : Session h r.calls
  flow : Flow h conn.err r.sends r.conn.err

theorem session_reply : Session h [.useHandle h, .openChild h c, .useChild c, .closeChild c] := by
  have hs : Session h ([.useHandle h] ++ (.openChild h c :: [.useChild c] ++ [.closeChild c])) :=
    (Session.use .nil).child (by simp)
  exact hs

theorem send_quiet (herr : conn.err = false) : Quiet conn h (conn.send impl h c cmdTmpl args a) := by
  unfold Conn.send
  cases Redis.exec impl cmdTmpl args with
  | error e => exact ⟨rfl, .nil, rfl⟩
  | ok call =>
    cases a.reply with
    | none => exact ⟨rfl, Session.use .nil, herr, rfl, rfl⟩
    | some reply => exact ⟨rfl, session_reply, herr, rfl, rfl⟩

/-- What is read of the reply, and the text of an error, change nothing. -/
theorem Quiet.map {β : Type} {r : After α} (hr : Quiet conn h r) {r' : After β}
    (hctx : r'.conn.ctx = r.conn.ctx) (herr : r'.conn.err = r.conn.err)
    (hcalls : r'.calls = r.calls) (hsends : r'.sends = r.sends) : Quiet conn h r' where
  ctx := hctx.trans hr.ctx
  session := hcalls ▸ hr.session
  flow := by
    rw [hsends, herr]
    exact hr.flow

theorem connected_eq_some (hc : conn.connected = some h) : conn.err = false ∧ conn.ctx = some h := by
  unfold Conn.connected at hc
  cases herr : conn.err <;> simp_all

/-- Without a context, or on one whose `err` is set, nothing is done. -/
structure Idle (conn : Conn) (r : After α) : Prop where
  conn_eq : r.conn = conn
  calls : r.calls = []
  sends : r.sends = []

theorem exec_cases (conn : Conn) (c : Nat) (cmdTmpl : Bytes) (args : List ValIn) (a : Answer) :
    Idle conn (conn.exec impl c cmdTmpl args a) ∨
      ∃ h, conn.ctx = some h ∧ Quiet conn h (conn.exec impl c cmdTmpl args a) := by
  unfold Conn.exec
  cases hc : conn.connected with
  | none => exact .inl ⟨rfl, rfl, rfl⟩
  | some h =>
    obtain ⟨herr, hctx⟩ := connected_eq_some hc
    have hq : Quiet conn h (conn.send impl h c cmdTmpl args a) := send_quiet herr
    refine .inr ⟨h, hctx, ?_⟩
    simp only
    split <;> exact hq.map rfl rfl rfl rfl

theorem query_cases (conn : Conn) (c : Nat) (cmdTmpl : Bytes) (args : List ValIn) (a : Answer) :
    Idle conn (conn.query impl c cmdTmpl args a) ∨
      ∃ h, conn.ctx = some h ∧ Quiet conn h (conn.query impl c cmdTmpl args a) := by
  unfold Conn.query
  cases hc : conn.connected with
  | none => exact .inl ⟨rfl, rfl, rfl⟩
  | some h =>
    obtain ⟨herr, hctx⟩ := connected_eq_some hc
    have hq : Quiet conn h (conn.send impl h c cmdTmpl args a) := send_quiet herr
    refine .inr ⟨h, hctx, ?_⟩
    simp only
    split <;> exact hq.map rfl rfl rfl rfl

theorem Idle.quiet {r : After α} (hr : Idle conn r) : Quiet conn h r where
  ctx := by rw [hr.conn_eq]
  session := hr.calls ▸ .nil
  flow := by
    rw [hr.sends, hr.conn_eq]
    rfl

theorem greet_quiet (hctx : conn.ctx = some h) (needed : Bool) (arg : ValIn) :
    Quiet conn h (conn.greet impl needed c cmdTmpl arg a) := by
  unfold Conn.greet
  cases needed with
  | false => exact ⟨rfl, .nil, rfl⟩
  | true =>
    rcases @exec_cases impl conn c cmdTmpl [arg] a with hidle | ⟨x, hx, hq⟩
    · exact (hidle.quiet (h := h)).map rfl rfl rfl rfl
    · obtain rfl : h = x := Option.some.inj (hctx.symm.trans hx)
      exact hq.map rfl rfl rfl rfl

/-! ## Contexts -/

variable {log : List Call} {owner : Nat → Option Nat} {next k : Nat}

theorem close_keeps (hk : Keeps log owner next) (howner : owner k = conn.ctx) :
    Keeps (log ++ conn.close.2) (Function.update owner k none) next := by
  cases hctx : conn.ctx with
  | none =>
    have hsame : Function.update owner k none = owner := by
      rw [← hctx, ← howner, Function.update_eq_self]
    simpa [Conn.close, hctx, hsame] using hk
  | some h => simpa [Conn.close, hctx] using hk.close (howner.trans hctx)

@[simp] theorem close_ctx (conn : Conn) : conn.close.1.ctx = none := by
  cases hctx : conn.ctx <;> simp [Conn.close, hctx]

variable {password : Bytes} {db : Int64} {a' : Connected} {auth select : Answer}

/-- A context is used for the commands of `connect`, which come back with
it, or it was not to be had. -/
theorem connect_cases (conn : Conn) (password : Bytes) (db : Int64) (h c : Nat) (a' : Connected)
    (auth select : Answer) :
    ((conn.connect impl password db h c a' auth select).sends = [] ∧
        (conn.connect impl password db h c a' auth select).conn.ctx = none ∧
        (conn.connect impl password db h c a' auth select).calls
          = conn.close.2 ++ if a'.made then [.openHandle h] ++ [.useHandle h] ++ [.closeHandle h]
              else []) ∨
      (a'.made = true ∧ (conn.connect impl password db h c a' auth select).conn.ctx = some h ∧
        Flow h false (conn.connect impl password db h c a' auth select).sends
          (conn.connect impl password db h c a' auth select).conn.err ∧
        ∃ seg, Session h seg ∧ (conn.connect impl password db h c a' auth select).calls
          = conn.close.2 ++ [.openHandle h] ++ seg) := by
  unfold Conn.connect
  by_cases hmade : a'.made = true
  · by_cases herr : a'.err = true
    · simp [hmade, herr]
    · simp only [hmade, herr, Bool.not_true, Bool.false_eq_true, if_false]
      let made := { conn.close.1 with ctx := some h, err := false, lastErr := "" }
      have hfirst :
          Quiet made h (made.greet impl (password ≠ []) c authTmpl (.string password) auth) :=
        greet_quiet rfl _ _
      refine .inr ⟨trivial, ?_⟩
      split
      · exact ⟨hfirst.ctx, hfirst.flow, _, hfirst.session, rfl⟩
      · let first := made.greet impl (password ≠ []) c authTmpl (.string password) auth
        have hsecond : Quiet first.conn h
            (first.conn.greet impl (0 < db.toInt) (c + 1) selectTmpl (.int db) select) :=
          greet_quiet hfirst.ctx _ _
        exact ⟨hsecond.ctx.trans hfirst.ctx, hfirst.flow.append hsecond.flow, _,
          hfirst.session.append hsecond.session, rfl⟩
  · simp [hmade]

theorem connect_keeps (hk : Keeps log owner next) (howner : owner k = conn.ctx) :
    Keeps (log ++ (conn.connect impl password db next c a' auth select).calls)
      (Function.update owner k (conn.connect impl password db next c a' auth select).conn.ctx)
      (next + if a'.made then 1 else 0) := by
  have hclosed := close_keeps hk howner
  have hopen := hclosed.open (k := k) (Function.update_self ..)
  rcases @connect_cases impl conn password db next c a' auth select with
    ⟨-, hctx, hcalls⟩ | ⟨hmade, hctx, -, seg, hseg, hcalls⟩
  · rw [hctx, hcalls]
    cases a'.made with
    | false => simpa using hclosed
    | true =>
      have hused := hopen.session (Function.update_self ..) (Session.use .nil)
      have hend := hused.close (k := k) (Function.update_self ..)
      simpa [Function.update_idem] using hend
  · rw [hctx, hcalls, hmade]
    have hused := hopen.session (Function.update_self ..) hseg
    simpa [Function.update_idem] using hused

/-! ## Runs -/

@[simp] theorem owner_put (w : World) (k : Nat) (conn : Option Conn) (calls : List Call)
    (sends : List (Nat × Bool)) :
    (w.put k conn calls sends).owner = Function.update w.owner k (conn.bind Conn.ctx) := by
  funext j
  by_cases hj : j = k <;> simp [World.owner, World.put, hj]

theorem owner_put_some (w : World) (k : Nat) (conn : Conn) (calls : List Call)
    (sends : List (Nat × Bool)) :
    (w.put k (some conn) calls sends).owner = Function.update w.owner k conn.ctx :=
  owner_put w k (some conn) calls sends

@[simp] theorem log_put (w : World) (k : Nat) (conn : Option Conn) (calls : List Call)
    (sends : List (Nat × Bool)) : (w.put k conn calls sends).log = w.log ++ calls := rfl

@[simp] theorem ctxs_put (w : World) (k : Nat) (conn : Option Conn) (calls : List Call)
    (sends : List (Nat × Bool)) : (w.put k conn calls sends).ctxs = w.ctxs := rfl

theorem owner_of_conn {w : World} (hconn : w.conns k = some conn) : w.owner k = conn.ctx := by
  simp [World.owner, hconn]

structure World.Inv (w : World) : Prop where
  keeps : Keeps w.log w.owner w.ctxs
  below : ∀ p ∈ w.sends, p.1 < w.ctxs
  ordered : Ordered w.sends
  failed : ∀ k conn h, w.conns k = some conn → conn.ctx = some h → (h, true) ∈ w.sends →
    conn.err = true

/-- A step that sends nothing and makes no connection with a context. -/
theorem World.Inv.unsent {w w' : World} (hw : w.Inv) (hkeeps : Keeps w'.log w'.owner w'.ctxs)
    (hsends : w'.sends = w.sends) (hctxs : w.ctxs ≤ w'.ctxs)
    (hconns : ∀ k conn, w'.conns k = some conn → conn.ctx = none ∨ ∃ j, w.conns j = some conn) :
    w'.Inv where
  keeps := hkeeps
  below p hp := Nat.lt_of_lt_of_le (hw.below p (hsends ▸ hp)) hctxs
  ordered := hsends ▸ hw.ordered
  failed k conn h hconn hctx hmem := by
    rcases hconns k conn hconn with hnone | ⟨j, hj⟩
    · simp [hnone] at hctx
    · exact hw.failed j conn h hj hctx (hsends ▸ hmem)

/-- A step that sends on the context of its connection. -/
theorem World.Inv.sent {w : World} (hw : w.Inv) {conn' : Conn} {calls : List Call} {e : Bool}
    {sends : List (Nat × Bool)} {n : Nat} (replies : Nat) (hctx : conn'.ctx = some h)
    (hkeeps : Keeps (w.log ++ calls) (Function.update w.owner k conn'.ctx) n) (hn : w.ctxs ≤ n)
    (he : (h, true) ∈ w.sends → e = true) (hflow : Flow h e sends conn'.err) :
    World.Inv { w.put k (some conn') calls sends with ctxs := n, replies := replies } := by
  obtain ⟨hordered, hfailed⟩ := flow_sends hw.ordered he hflow
  refine ⟨?_, ?_, hordered, ?_⟩
  · rw [show World.owner { w.put k (some conn') calls sends with ctxs := n, replies := replies }
      = Function.update w.owner k conn'.ctx from owner_put w k (some conn') calls sends]
    exact hkeeps
  · intro p hp
    rcases List.mem_append.1 hp with hp | hp
    · exact Nat.lt_of_lt_of_le (hw.below p hp) hn
    · rw [hflow.ctx p hp]
      exact hkeeps.below (k := k) (by rw [Function.update_self, hctx])
  · intro j conn x hconn hx hmem
    rcases update_cases hconn with ⟨hj, hsame⟩ | ⟨hj, hold⟩
    · cases hsame
      obtain rfl : x = h := Option.some.inj (hx.symm.trans hctx)
      exact hfailed hmem
    · have hne : x ≠ h := by
        rintro rfl
        refine hj (hkeeps.inj j k x ?_ ?_)
        · rw [Function.update_of_ne hj, owner_of_conn hold, hx]
        · rw [Function.update_self, hctx]
      rcases List.mem_append.1 hmem with hmem | hmem
      · exact hw.failed j conn x hold hx hmem
      · exact absurd (hflow.ctx _ hmem) hne

/-- What `exec` and `query` do, if there is a context or not. -/
theorem World.Inv.command {w : World} (hw : w.Inv) (hconn : w.conns k = some conn)
    {r : After α} (replies : Nat)
    (hr : Idle conn r ∨ ∃ h, conn.ctx = some h ∧ Quiet conn h r) :
    World.Inv { w.put k (some r.conn) r.calls r.sends with replies := replies } := by
  have howner := owner_of_conn hconn
  have hsame : Function.update w.owner k conn.ctx = w.owner := by
    rw [← howner, Function.update_eq_self]
  rcases hr with ⟨heq, hcalls, hsends⟩ | ⟨h, hctx, hq⟩
  · refine hw.unsent ?_ ?_ (Nat.le_refl _) ?_
    · rw [show World.owner { w.put k (some r.conn) r.calls r.sends with replies := replies }
        = Function.update w.owner k r.conn.ctx from owner_put w k (some r.conn) r.calls r.sends,
        heq, hsame]
      simpa [World.put, hcalls] using hw.keeps
    · simp [World.put, hsends]
    · intro j conn₁ hj
      rcases update_cases hj with ⟨-, hnew⟩ | ⟨-, hold⟩
      · exact .inr ⟨k, by rw [hconn, ← hnew, heq]⟩
      · exact .inr ⟨j, hold⟩
  · refine hw.sent replies (hq.ctx.trans hctx) ?_ (Nat.le_refl _) (hw.failed k conn h hconn hctx)
      hq.flow
    rw [hq.ctx, hsame]
    exact hw.keeps.session (howner.trans hctx) hq.session

theorem World.Inv.step {w w' : World} {op : Op} (hw : w.Inv) (hs : w.step impl op = some w') :
    w'.Inv := by
  cases op with
  | construct k =>
    simp only [World.step] at hs
    split at hs
    case h_2 => cases hs
    case h_1 hconn =>
      cases hs
      have hsame : Function.update w.owner k none = w.owner := by
        rw [show (none : Option Nat) = w.owner k by simp [World.owner, hconn],
          Function.update_eq_self]
      refine hw.unsent ?_ (by simp [World.put]) (Nat.le_refl _) ?_
      · simpa [Conn.new, hsame] using hw.keeps
      · intro j conn hj
        rcases update_cases hj with ⟨-, hnew⟩ | ⟨-, hold⟩
        · cases hnew
          exact .inl rfl
        · exact .inr ⟨j, hold⟩
  | moveConstruct k src =>
    simp only [World.step] at hs
    split at hs
    case h_2 => cases hs
    case h_1 other hconn hother =>
      cases hs
      have hne : k ≠ src := by
        rintro rfl
        simp [hconn] at hother
      have hmoved := hw.keeps.move (by simp [World.owner, hconn]) hne
      refine hw.unsent ?_ (by simp [World.put]) (Nat.le_refl _) ?_
      · simpa [Conn.new, owner_of_conn hother] using hmoved
      · intro j conn hj
        rcases update_cases hj with ⟨-, hnew⟩ | ⟨-, hold⟩
        · exact .inr ⟨src, hother.trans hnew⟩
        rcases update_cases hold with ⟨-, hnew⟩ | ⟨-, hold⟩
        · cases hnew
          exact .inl rfl
        · exact .inr ⟨j, hold⟩
  | moveAssign k src =>
    simp only [World.step] at hs
    split at hs
    case h_2 => cases hs
    case h_1 conn other hconn hother =>
      by_cases hne : k = src
      · rw [if_pos hne] at hs
        cases hs
        exact hw
      · rw [if_neg hne] at hs
        cases hs
        have hclosed := close_keeps hw.keeps (owner_of_conn hconn)
        have hmoved := hclosed.move (Function.update_self ..) hne
        rw [Function.update_of_ne (Ne.symm hne), Function.update_comm hne,
          Function.update_idem] at hmoved
        refine hw.unsent ?_ (by simp [World.put]) (Nat.le_refl _) ?_
        · simpa [Conn.new, owner_of_conn hother] using hmoved
        · intro j conn' hj
          rcases update_cases hj with ⟨-, hnew⟩ | ⟨-, hold⟩
          · exact .inr ⟨src, hother.trans hnew⟩
          rcases update_cases hold with ⟨-, hnew⟩ | ⟨-, hold⟩
          · cases hnew
            exact .inl rfl
          · exact .inr ⟨j, hold⟩
  | destroy k =>
    simp only [World.step, Option.map_eq_some_iff] at hs
    obtain ⟨conn, hconn, rfl⟩ := hs
    refine hw.unsent ?_ (by simp [World.put]) (Nat.le_refl _) ?_
    · simpa using close_keeps hw.keeps (owner_of_conn hconn)
    · intro j conn' hj
      rcases update_cases hj with ⟨-, hnew⟩ | ⟨-, hold⟩
      · cases hnew
      · exact .inr ⟨j, hold⟩
  | close k =>
    simp only [World.step, Option.map_eq_some_iff] at hs
    obtain ⟨conn, hconn, rfl⟩ := hs
    refine hw.unsent ?_ (by simp [World.put]) (Nat.le_refl _) ?_
    · simpa using close_keeps hw.keeps (owner_of_conn hconn)
    · intro j conn' hj
      rcases update_cases hj with ⟨-, hnew⟩ | ⟨-, hold⟩
      · cases hnew
        exact .inl (close_ctx conn)
      · exact .inr ⟨j, hold⟩
  | connect k password db a auth select =>
    simp only [World.step, Option.map_eq_some_iff] at hs
    obtain ⟨conn, hconn, rfl⟩ := hs
    have hkeeps : Keeps
        (w.log ++ (conn.connect impl password db w.ctxs w.replies a auth select).calls)
        (Function.update w.owner k
          (conn.connect impl password db w.ctxs w.replies a auth select).conn.ctx)
        (w.ctxs + if a.made then 1 else 0) :=
      connect_keeps hw.keeps (owner_of_conn hconn)
    rcases @connect_cases impl conn password db w.ctxs w.replies a auth select with
      ⟨hsends, hctx, -⟩ | ⟨-, hctx, hflow, -⟩
    · refine hw.unsent ?_ (by simp [World.put, hsends]) (Nat.le_add_right _ _) ?_
      · rw [← owner_put_some w k _ (conn.connect impl password db w.ctxs w.replies a auth select).calls
          (conn.connect impl password db w.ctxs w.replies a auth select).sends] at hkeeps
        exact hkeeps
      · intro j conn' hj
        rcases update_cases hj with ⟨-, hnew⟩ | ⟨-, hold⟩
        · cases hnew
          exact .inl hctx
        · exact .inr ⟨j, hold⟩
    · refine hw.sent _ hctx hkeeps (Nat.le_add_right _ _) (fun hmem => ?_) hflow
      exact absurd (hw.below _ hmem) (Nat.lt_irrefl _)
  | exec k cmdTmpl args a =>
    simp only [World.step, Option.map_eq_some_iff] at hs
    obtain ⟨conn, hconn, rfl⟩ := hs
    exact hw.command hconn _ (exec_cases conn w.replies cmdTmpl args a)
  | query k cmdTmpl args a =>
    simp only [World.step, Option.map_eq_some_iff] at hs
    obtain ⟨conn, hconn, rfl⟩ := hs
    exact hw.command hconn _ (query_cases conn w.replies cmdTmpl args a)

/-- Whatever hiredis and the server answer, in whatever order connections
are made, moved, connected, used and destroyed: the calls keep the
protocol, so that a context is used only while it is open and a reply only
until it is freed, in the call that got it. No two connections hold one
context; a context that was opened is held or was freed once; each reply
was freed; and nothing is sent on a context behind a command at which
hiredis set its `err`. A command that the server refuses sets none, and
the context is used on. -/
theorem contexts_and_replies {tr : List Op} {w : World} (h : (lts impl).Run tr w) :
    (∃ l, api.Run w.log l ∧ (∀ c, l.parent c = none) ∧
        ∀ h, l.handle h = true ↔ ∃ k, w.owner k = some h) ∧
      (∀ j k h, w.owner j = some h → w.owner k = some h → j = k) ∧
      (∀ h < w.ctxs,
        w.log.count (.closeHandle h) = 0 ∧ (∃ k, w.owner k = some h) ∨
          w.log.count (.closeHandle h) = 1 ∧ ¬ ∃ k, w.owner k = some h) ∧
      (∀ c, w.log.countP (·.opens c) = w.log.count (.closeChild c)) ∧
      w.sends.Pairwise fun p q => p.2 = true → q.1 ≠ p.1 := by
  have hw : w.Inv := by
    refine Lts.Run.invariant (I := fun _ w => World.Inv w) ?_ ?_ h
    · rintro w rfl
      exact ⟨Handles.Keeps.start, by simp [World.new], by simp [World.new, Ordered],
        by simp [World.new]⟩
    · intro tr w op w' _ hw hs
      exact hw.step hs
  exact ⟨hw.keeps.run, hw.keeps.inj, fun _ => hw.keeps.closed_iff, hw.keeps.children, hw.ordered⟩

/-- The server refuses the password, a command fails, and another is
tried. -/
def refusedTrace : List Op :=
  [.construct 0,
    .connect 0 [0x70] 0 ⟨true, false, ""⟩ ⟨some (.error (some "WRONGPASS")), false, ""⟩
      ⟨none, false, ""⟩,
    .exec 0 [0x50] [] ⟨none, true, "Connection reset by peer"⟩,
    .exec 0 [0x50] [] ⟨some (.status [0x4F, 0x4B]), false, ""⟩, .destroy 0]

theorem refused_run : ∃ w, (lts Redis.libstdcxx).Run refusedTrace w ∧ w.owner 0 = none ∧
    w.ctxs = 1 ∧ w.sends = [(0, false), (0, true)] := by
  have step : ∀ w op w', World.step Redis.libstdcxx w op = some w' →
      (lts Redis.libstdcxx).step w op w' := fun _ _ _ h => h
  have h0 : (lts Redis.libstdcxx).Run [] .new := .start rfl
  have h1 := h0.snoc (step _ (.construct 0) _ rfl)
  have h2 := h1.snoc (step _ (.connect 0 [0x70] 0 ⟨true, false, ""⟩
    ⟨some (.error (some "WRONGPASS")), false, ""⟩ ⟨none, false, ""⟩) _ rfl)
  have h3 := h2.snoc (step _ (.exec 0 [0x50] [] ⟨none, true, "Connection reset by peer"⟩) _ rfl)
  have h4 := h3.snoc (step _ (.exec 0 [0x50] [] ⟨some (.status [0x4F, 0x4B]), false, ""⟩) _ rfl)
  have h5 := h4.snoc (step _ (.destroy 0) _ rfl)
  exact ⟨_, h5, rfl, rfl, rfl⟩

/-- The theorem on that run: the second command was not sent, and the
reply to the first was freed. -/
theorem contexts_and_replies_refused :
    ∃ w, (lts Redis.libstdcxx).Run refusedTrace w ∧ w.sends = [(0, false), (0, true)] ∧
      w.log.countP (·.opens 0) = w.log.count (.closeChild 0) := by
  obtain ⟨w, hrun, -, -, hsends⟩ := refused_run
  exact ⟨w, hrun, hsends, (contexts_and_replies hrun).2.2.2.1 0⟩

/-! ## Tables -/

theorem isTable_toRet (reply : Reply) :
    match reply with
    | .array elements =>
        reply.toRet.IsTable elements.length 1 fun r _ => (elements.getD r .other).cell
    | _ => reply.toRet.IsTable 1 1 fun _ _ => reply.cell := by
  have hone : ∀ val : OutVal, ((Ret.setDim 1 1).emplaceBack val).IsTable 1 1 fun _ _ => val := by
    intro val
    refine ⟨rfl, rfl, rfl, ?_⟩
    intro r hr c hc
    have hr0 : r = 0 := by omega
    have hc0 : c = 0 := by omega
    simp [hr0, hc0, Ret.get, Ret.emplaceBack, Ret.setDim]
  cases reply with
  | array elements =>
    have htable := @isTable_of_flatten (elements.map fun e => [e.cell]) 1 (by simp)
      (fun r _ => (elements.getD r .other).cell) (by
        intro r c hr hc
        have hc0 : c = 0 := by omega
        rw [List.length_map] at hr
        simp [hc0, hr])
    have hflat : ∀ es : List Reply, (es.map fun e => [e.cell]).flatten = es.map Reply.cell := by
      intro es
      induction es with
      | nil => rfl
      | cons e es ih => simp [ih]
    simpa [Reply.toRet, hflat] using htable
  | string s => exact hone _
  | status s => exact hone _
  | integer n => exact hone _
  | error str => exact hone _
  | other => exact hone _

/-- `query` leaves an empty table, or that of the reply. -/
theorem query_cleared_or_filled (conn : Conn) (c : Nat) (cmdTmpl : Bytes) (args : List ValIn)
    (a : Answer) :
    ((conn.query impl c cmdTmpl args a).result.2 ≠ none →
        (conn.query impl c cmdTmpl args a).result.1 = .clear) ∧
      ((conn.query impl c cmdTmpl args a).result.2 = none →
        ∃ reply ∈ a.reply, (∀ str, reply ≠ .error str) ∧
          (conn.query impl c cmdTmpl args a).result.1 = reply.toRet) := by
  unfold Conn.query
  cases conn.connected with
  | none => simp
  | some h =>
    unfold Conn.send
    cases Redis.exec impl cmdTmpl args with
    | error e => simp
    | ok call =>
      cases hreply : a.reply with
      | none => simp
      | some reply => cases reply <;> simp

end HighJump.Db.RedisConn
