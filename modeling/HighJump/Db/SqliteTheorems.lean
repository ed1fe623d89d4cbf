/-
HighJump.Db.SqliteTheorems — the connections keep SQLite's protocol.

A statement lives inside one call: `session_prepared` says that preparing
it, whatever is done with it and finalizing it is a session with the
handle. Everything else about handles is `Handles.Keeps`, whose owners
are the connections.
-/
import HighJump.Db.Sqlite

namespace HighJump.Db.Sqlite

open HighJump.Lib HighJump.Lib.Handles

variable {h c : Nat} {a : Answers} {count : Option Nat} {stmt : Option Nat}

/-! ## Statements -/

/-- Calls on the statement and on its handle. -/
def Body (h : Nat) (stmt : Option Nat) (calls : List Call) : Prop :=
  ∀ x ∈ calls, x ∈ onStmt stmt ∨ x = .useHandle h

theorem body_onStmt (h : Nat) (stmt : Option Nat) : Body h stmt (onStmt stmt) :=
  fun _ hx => .inl hx

theorem body_use (h : Nat) (stmt : Option Nat) : Body h stmt [.useHandle h] := by
  simp [Body]

theorem Body.append {calls calls' : List Call} (hc : Body h stmt calls)
    (hc' : Body h stmt calls') : Body h stmt (calls ++ calls') := by
  intro x hx
  rcases List.mem_append.1 hx with hx | hx
  · exact hc x hx
  · exact hc' x hx

theorem body_bindLoop (n i : Nat) : Body h stmt (bindLoop stmt h a n i).2 := by
  induction n generalizing i with
  | zero => simp [bindLoop, Body]
  | succ n ih =>
    unfold bindLoop
    by_cases hb : a.bound i = true
    · simpa [hb] using (body_onStmt h stmt).append (ih (i + 1))
    · simpa [hb] using (body_onStmt h stmt).append (body_use h stmt)

theorem body_bindStmtArgs : Body h stmt (bindStmtArgs stmt h count a).2 := by
  cases count with
  | none => simp [bindStmtArgs, Body]
  | some n => exact body_bindLoop n 0

theorem body_fetchCalls (cols : Nat) (rows : List (Nat → Column)) :
    Body h stmt (fetchCalls stmt cols rows) := by
  intro x hx
  simp only [fetchCalls, List.mem_append, List.mem_flatMap, List.mem_flatten] at hx
  rcases hx with ⟨_, _, hx | ⟨_, _, calls, hcalls, hx⟩⟩ | hx
  · exact .inl hx
  · rw [List.eq_of_mem_replicate hcalls] at hx
    exact .inl hx
  · exact .inl hx

/-- A session that only uses the handle. -/
theorem session_uses {seg more : List Call} (hseg : Session h seg)
    (hmore : ∀ x ∈ more, x = .useHandle h) : Session h (seg ++ more) := by
  induction more generalizing seg with
  | nil => simpa using hseg
  | cons x more ih =>
    have hx : x = .useHandle h := hmore x (by simp)
    subst hx
    simpa using ih hseg.use fun y hy => hmore y (by simp [hy])

/-- From preparing a statement to finalizing it. -/
theorem session_prepared {body : List Call} (hbody : Body h (prepare h c a).1 body) :
    Session h ((prepare h c a).2 ++ (body ++ finalize (prepare h c a).1)) := by
  by_cases hstmt : (a.prepared && a.stmt) = true
  · simp only [prepare, hstmt, if_true, finalize] at hbody ⊢
    have hs : Session h ([.useHandle h] ++ (.openChild h c :: body ++ [.closeChild c])) := by
      refine (Session.use .nil).child fun x hx => ?_
      simpa [onStmt] using hbody x hx
    simpa using hs
  · simp only [prepare, hstmt, finalize] at hbody ⊢
    have hs : Session h ([.useHandle h] ++ body) := by
      refine session_uses (Session.use .nil) fun x hx => ?_
      simpa [onStmt] using hbody x hx
    simpa using hs

/-- A statement that could not be prepared was not made. -/
theorem session_refused (hprep : a.prepared = false) :
    Session h ((prepare h c a).2 ++ [.useHandle h]) := by
  have hs : Session h ([] ++ [.useHandle h] ++ [.useHandle h]) := (Session.use .nil).use
  simpa [prepare, hprep] using hs

theorem exec_session {conn : Conn} (hdb : conn.db = some h) :
    Session h (conn.exec c count a).2.1 := by
  simp only [Conn.exec, hdb]
  by_cases hprep : a.prepared = true
  · have hbind : Body h (prepare h c a).1 (bindStmtArgs (prepare h c a).1 h count a).2 :=
      body_bindStmtArgs
    have hstep := hbind.append (body_onStmt h _)
    simp only [hprep, Bool.not_true, Bool.false_eq_true, if_false]
    split
    · simpa [List.append_assoc] using session_prepared hbind
    · split
      · simpa [List.append_assoc] using
          session_prepared ((hstep.append (body_use h _)).append (body_use h _))
      · simpa [List.append_assoc] using session_prepared (hstep.append (body_use h _))
  · simp only [hprep, Bool.not_false, if_true]
    exact session_refused (by simpa using hprep)

theorem query_session {conn : Conn} (outs : Ret) (hdb : conn.db = some h) :
    Session h (conn.query c outs count a).2.1 := by
  simp only [Conn.query, hdb]
  by_cases hprep : a.prepared = true
  · have hbind : Body h (prepare h c a).1 (bindStmtArgs (prepare h c a).1 h count a).2 :=
      body_bindStmtArgs
    have hrows := (hbind.append (body_onStmt h _)).append (body_fetchCalls a.cols a.rows)
    simp only [hprep, Bool.not_true, Bool.false_eq_true, if_false]
    split
    · simpa [List.append_assoc] using session_prepared hbind
    · split
      · simpa [List.append_assoc] using (session_prepared hrows).use
      · simpa [List.append_assoc] using session_prepared hrows
  · simp only [hprep, Bool.not_false, if_true]
    exact session_refused (by simpa using hprep)

theorem exec_db (conn : Conn) (c : Nat) (count : Option Nat) (a : Answers) :
    (conn.exec c count a).1.db = conn.db := by
  unfold Conn.exec
  cases hdb : conn.db with
  | none => simp [hdb]
  | some h =>
    simp only
    split
    · rfl
    split
    · rfl
    split
    · exact hdb
    · rfl

theorem query_db (conn : Conn) (c : Nat) (outs : Ret) (count : Option Nat) (a : Answers) :
    (conn.query c outs count a).1.db = conn.db := by
  unfold Conn.query
  cases hdb : conn.db with
  | none => simp [hdb]
  | some h =>
    simp only
    split
    · rfl
    split
    · rfl
    split
    · rfl
    · exact hdb

/-! ## Handles -/

variable {log : List Call} {owner : Nat → Option Nat} {next k : Nat} {conn : Conn}

theorem close_keeps (hk : Keeps log owner next) (howner : owner k = conn.db) :
    Keeps (log ++ conn.close.2) (Function.update owner k none) next := by
  cases hdb : conn.db with
  | none =>
    have hsame : Function.update owner k none = owner := by
      rw [← hdb, ← howner, Function.update_eq_self]
    simpa [Conn.close, hdb, hsame] using hk
  | some h => simpa [Conn.close, hdb] using hk.close (howner.trans hdb)

@[simp] theorem close_db (conn : Conn) : conn.close.1.db = none := by
  cases hdb : conn.db <;> simp [Conn.close, hdb]

theorem open_keeps (hk : Keeps log owner next) (howner : owner k = conn.db) (filename : String)
    (a : Opened) :
    Keeps (log ++ (conn.open filename next a).2.1)
      (Function.update owner k (conn.open filename next a).1.db)
      (next + if a.handle then 1 else 0) := by
  have hclosed := close_keeps hk howner
  have hnone : Function.update owner k none k = none := Function.update_self ..
  unfold Conn.open
  cases hok : a.ok <;> cases hhandle : a.handle
  · simpa using hclosed
  · have hopen := hclosed.open hnone
    have hused := hopen.session (Function.update_self ..) (Session.use .nil)
    have hend := hused.close (k := k) (Function.update_self ..)
    simpa [Function.update_idem] using hend
  · simpa using hclosed
  · simpa [Function.update_idem] using hclosed.open hnone

/-! ## Runs -/

@[simp] theorem owner_put (w : World) (k : Nat) (conn : Option Conn) (calls : List Call) :
    (w.put k conn calls).owner = Function.update w.owner k (conn.bind Conn.db) := by
  funext j
  by_cases hj : j = k
  · simp [World.owner, World.put, hj]
  · simp [World.owner, World.put, hj]

theorem owner_put_some (w : World) (k : Nat) (conn : Conn) (calls : List Call) :
    (w.put k (some conn) calls).owner = Function.update w.owner k conn.db :=
  owner_put w k (some conn) calls

@[simp] theorem log_put (w : World) (k : Nat) (conn : Option Conn) (calls : List Call) :
    (w.put k conn calls).log = w.log ++ calls := rfl

@[simp] theorem handles_put (w : World) (k : Nat) (conn : Option Conn) (calls : List Call) :
    (w.put k conn calls).handles = w.handles := rfl

def World.Keeps (w : World) : Prop := Handles.Keeps w.log w.owner w.handles

theorem owner_of_conn {w : World} (hconn : w.conns k = some conn) : w.owner k = conn.db := by
  simp [World.owner, hconn]

/-- A call that leaves the handle where it is. -/
theorem keeps_session {w : World} (hw : w.Keeps) {conn' : Conn} {calls : List Call}
    (hconn : w.conns k = some conn) (hdb : conn'.db = conn.db)
    (hcalls : ∀ h, conn.db = some h → Session h calls) (hnone : conn.db = none → calls = []) :
    Handles.Keeps (w.log ++ calls) (Function.update w.owner k conn'.db) w.handles := by
  have hsame : Function.update w.owner k conn'.db = w.owner := by
    rw [hdb, ← owner_of_conn hconn, Function.update_eq_self]
  rw [hsame]
  cases h : conn.db with
  | none =>
    rw [hnone h, List.append_nil]
    exact hw
  | some x => exact Handles.Keeps.session hw ((owner_of_conn hconn).trans h) (hcalls x h)

theorem step_keeps {w w' : World} {op : Op} (hw : w.Keeps) (hs : w.step op = some w') :
    w'.Keeps := by
  cases op with
  | construct k =>
    simp only [World.step] at hs
    split at hs
    case h_2 => cases hs
    case h_1 hconn =>
      cases hs
      have hsame : Function.update w.owner k none = w.owner := by
        rw [show (none : Option Nat) = w.owner k by simp [World.owner, hconn],
          Function.update_eq_self]
      simpa [World.Keeps, Conn.new, hsame] using hw
  | moveConstruct k src =>
    simp only [World.step] at hs
    split at hs
    case h_2 => cases hs
    case h_1 other hconn hother =>
      cases hs
      have hne : k ≠ src := by
        rintro rfl
        simp [hconn] at hother
      have hmoved := Handles.Keeps.move hw (by simp [World.owner, hconn]) hne
      simpa [World.Keeps, Conn.new, owner_of_conn hother] using hmoved
  | moveAssign k src =>
    simp only [World.step] at hs
    split at hs
    case h_2 => cases hs
    case h_1 conn other hconn hother =>
      by_cases hne : k = src
      · rw [if_pos hne] at hs
        cases hs
        exact hw
      · rw [if_neg hne] at hs
        cases hs
        have hclosed := close_keeps hw (owner_of_conn hconn)
        have hmoved := hclosed.move (Function.update_self ..) hne
        rw [Function.update_of_ne (Ne.symm hne), Function.update_comm hne,
          Function.update_idem] at hmoved
        simpa [World.Keeps, Conn.new, owner_of_conn hother] using hmoved
  | destroy k =>
    simp only [World.step, Option.map_eq_some_iff] at hs
    obtain ⟨conn, hconn, rfl⟩ := hs
    simpa [World.Keeps] using close_keeps hw (owner_of_conn hconn)
  | «open» k filename a =>
    simp only [World.step, Option.map_eq_some_iff] at hs
    obtain ⟨conn, hconn, rfl⟩ := hs
    have hopen := open_keeps hw (owner_of_conn hconn) filename a
    rw [← owner_put_some w k _ (conn.open filename w.handles a).2.1] at hopen
    exact hopen
  | close k =>
    simp only [World.step, Option.map_eq_some_iff] at hs
    obtain ⟨conn, hconn, rfl⟩ := hs
    simpa [World.Keeps] using close_keeps hw (owner_of_conn hconn)
  | exec k count a =>
    simp only [World.step, Option.map_eq_some_iff] at hs
    obtain ⟨conn, hconn, rfl⟩ := hs
    have hcalls : ∀ h, conn.db = some h → Session h (conn.exec w.stmts count a).2.1 :=
      fun h hdb => exec_session hdb
    have hexec := keeps_session hw hconn (exec_db conn w.stmts count a) hcalls
      (fun hdb => by simp [Conn.exec, hdb])
    rw [← owner_put_some w k _ (conn.exec w.stmts count a).2.1] at hexec
    exact hexec
  | query k outs count a =>
    simp only [World.step, Option.map_eq_some_iff] at hs
    obtain ⟨conn, hconn, rfl⟩ := hs
    have hcalls : ∀ h, conn.db = some h → Session h (conn.query w.stmts outs count a).2.1 :=
      fun h hdb => query_session outs hdb
    have hquery := keeps_session hw hconn (query_db conn w.stmts outs count a) hcalls
      (fun hdb => by simp [Conn.query, hdb])
    rw [← owner_put_some w k _ (conn.query w.stmts outs count a).2.1] at hquery
    exact hquery

/-- Whatever SQLite answers, in whatever order connections are made,
moved, opened, used and destroyed: the calls keep its protocol, so that a
handle is used only while it is open and a statement only between the
call that made it and the one that finalizes it, which comes before its
handle is closed. No two connections hold one handle; a handle that was
opened is held by a connection or was closed once; and each statement
was finalized as often as it was made. -/
theorem handles_and_statements {tr : List Op} {w : World} (h : lts.Run tr w) :
    (∃ l, api.Run w.log l ∧ (∀ c, l.parent c = none) ∧
        ∀ h, l.handle h = true ↔ ∃ k, w.owner k = some h) ∧
      (∀ j k h, w.owner j = some h → w.owner k = some h → j = k) ∧
      (∀ h < w.handles,
        w.log.count (.closeHandle h) = 0 ∧ (∃ k, w.owner k = some h) ∨
          w.log.count (.closeHandle h) = 1 ∧ ¬ ∃ k, w.owner k = some h) ∧
      ∀ c, w.log.countP (·.opens c) = w.log.count (.closeChild c) := by
  have hw : w.Keeps := by
    refine Lts.Run.invariant (I := fun _ w => World.Keeps w) ?_ ?_ h
    · rintro w rfl
      exact Handles.Keeps.start
    · intro tr w op w' _ hw hs
      exact step_keeps hw hs
  exact ⟨hw.run, hw.inj, fun _ => hw.closed_iff, hw.children⟩

/-- One argument cannot be bound, and the connection is moved. -/
def movedTrace : List Op :=
  [.construct 0, .open 0 "a.db" ⟨true, true, ""⟩,
    .exec 0 (some 1) ⟨true, true, fun _ => false, 0, [], true, 0, 0, "datatype mismatch"⟩,
    .moveConstruct 1 0, .destroy 0, .destroy 1]

theorem moved_run : ∃ w, lts.Run movedTrace w ∧ w.owner 1 = none ∧
    w.log.countP (·.opens 0) = 1 := by
  have step : ∀ w op w', World.step w op = some w' → lts.step w op w' := fun _ _ _ h => h
  have h0 : lts.Run [] .new := .start rfl
  have h1 := h0.snoc (step _ (.construct 0) _ rfl)
  have h2 := h1.snoc (step _ (.open 0 "a.db" ⟨true, true, ""⟩) _ rfl)
  have h3 := h2.snoc (step _ (.exec 0 (some 1)
    ⟨true, true, fun _ => false, 0, [], true, 0, 0, "datatype mismatch"⟩) _ rfl)
  have h4 := h3.snoc (step _ (.moveConstruct 1 0) _ rfl)
  have h5 := h4.snoc (step _ (.destroy 0) _ rfl)
  have h6 := h5.snoc (step _ (.destroy 1) _ rfl)
  exact ⟨_, h6, rfl, rfl⟩

/-- The theorem on that run: the statement was finalized. -/
theorem handles_and_statements_moved :
    ∃ w, lts.Run movedTrace w ∧ w.log.count (.closeChild 0) = 1 := by
  obtain ⟨w, hrun, -, hopened⟩ := moved_run
  exact ⟨w, hrun, ((handles_and_statements hrun).2.2.2 0).symm.trans hopened⟩

/-! ## Tables -/

/-- The `switch` gives the value that the column holds. -/
theorem cell_eq {col : Column} {v : OutVal} (hv : col.Holds v) : col.cell = v := by
  cases v with
  | null => rw [Column.cell, show col.type = 5 from hv]; rfl
  | int n =>
    obtain ⟨htype, rfl⟩ := hv
    rw [Column.cell, if_pos htype]
  | double d =>
    obtain ⟨htype, rfl⟩ := hv
    rw [Column.cell, htype]
    rfl
  | text s =>
    obtain ⟨htype, ⟨t, ht⟩, hlen⟩ := hv
    rw [Column.cell, htype, ← ht, hlen, List.append_assoc, List.take_left]
    rfl
  | blob s =>
    obtain ⟨htype, ⟨t, ht⟩, hlen⟩ := hv
    rw [Column.cell, htype, ← ht, hlen, List.take_left]
    rfl

/-- The loop collects the rows one behind the other and counts them. -/
theorem fetch_eq (cols : Nat) (rows : List (Nat → Column)) (tempData : List OutVal)
    (rowsCnt : Nat) :
    fetch cols tempData rowsCnt rows
      = (tempData ++ (rows.map fun row => (List.range cols).map fun c => (row c).cell).flatten,
          rowsCnt + rows.length) := by
  induction rows generalizing tempData rowsCnt with
  | nil => simp [fetch]
  | cons row rows ih =>
    rw [fetch, ih]
    simp [Nat.add_assoc, Nat.add_comm]

theorem bindLoop_fst (n i : Nat) :
    (bindLoop stmt h a n i).1 = true ↔ ∀ j, i ≤ j → j < i + n → a.bound j = true := by
  induction n generalizing i with
  | zero =>
    simp only [bindLoop, true_iff]
    intro j hij hj
    omega
  | succ n ih =>
    unfold bindLoop
    by_cases hb : a.bound i = true
    · simp only [hb, if_true, ih]
      constructor
      · intro hall j hij hj
        by_cases heq : j = i
        · rwa [heq]
        · exact hall j (by omega) (by omega)
      · intro hall j hij hj
        exact hall j (by omega) (by omega)
    · simp only [hb, Bool.false_eq_true, if_false, false_iff]
      intro hall
      exact hb (hall i (Nat.le_refl i) (by omega))

theorem bindStmtArgs_fst :
    (bindStmtArgs stmt h count a).1 = true ↔ ∀ i < count.getD 0, a.bound i = true := by
  cases count with
  | none => simp [bindStmtArgs]
  | some n => simp [bindStmtArgs, bindLoop_fst]

/-- The table of the rows that SQLite came to. -/
theorem isTable_fetch {cols : Nat} {rows : List (Nat → Column)} {stored : Nat → Nat → OutVal}
    (hrows : ∀ r, (hr : r < rows.length) → ∀ c < cols, (rows[r] c).Holds (stored r c)) :
    ((fetch cols [] 0 rows).1.foldl Ret.emplaceBack (.setDim (fetch cols [] 0 rows).2 cols)).IsTable
      rows.length cols stored := by
  let table := rows.map fun row => (List.range cols).map fun c => (row c).cell
  have htable := @isTable_of_flatten table cols (by simp [table]) stored (by
    intro r c hr hc
    rw [List.length_map] at hr
    simp [table, hc, cell_eq (hrows r hr c hc)])
  rw [fetch_eq]
  simpa [table] using htable

/-- `query` fills the table or leaves it alone: it does the first if and
only if there is a connection, the statement can be prepared, every
argument bound and every row fetched; and then the cells are what the
columns of the rows hold, and there is nothing else in it. -/
theorem query_all_or_nothing (conn : Conn) (c : Nat) (outs : Ret) (count : Option Nat)
    (a : Answers) (stored : Nat → Nat → OutVal)
    (hrows : ∀ r, (hr : r < a.rows.length) → ∀ c < a.cols, (a.rows[r] c).Holds (stored r c)) :
    ((conn.query c outs count a).2.2.2 = none ↔
        conn.db ≠ none ∧ a.prepared = true ∧ (∀ i < count.getD 0, a.bound i = true) ∧
          a.done = true) ∧
      ((conn.query c outs count a).2.2.2 ≠ none → (conn.query c outs count a).2.2.1 = outs) ∧
      ((conn.query c outs count a).2.2.2 = none →
        (conn.query c outs count a).2.2.1.IsTable a.rows.length a.cols stored) := by
  unfold Conn.query
  cases hdb : conn.db with
  | none => simp
  | some h =>
    by_cases hprep : a.prepared = true
    · by_cases hbound : (bindStmtArgs (prepare h c a).1 h count a).1 = true
      · have hall := bindStmtArgs_fst.1 hbound
        by_cases hdone : a.done = true
        · simp only [hprep, hbound, hdone, Bool.not_true, Bool.false_eq_true, if_false]
          exact ⟨by simpa using hall, by simp, fun _ => isTable_fetch hrows⟩
        · simp [hprep, hbound, hdone]
      · have hnot : ¬ ∀ i < count.getD 0, a.bound i = true := fun hall =>
          hbound (bindStmtArgs_fst.2 hall)
        simp only [hprep, hbound, Bool.not_true, Bool.false_eq_true, if_false, Bool.not_false,
          if_true]
        exact ⟨⟨by simp, fun hyp => absurd hyp.2.2.1 hnot⟩, by simp, by simp⟩
    · simp [hprep]

/-- A row of two columns: a number and a text with a null byte in it, which
is not its end. -/
def numbered : Answers where
  prepared := true
  stmt := true
  bound _ := true
  cols := 2
  rows := [fun c =>
    if c = 0 then { type := 1, int64 := -7, double := 0, text := [], blob := [], bytes := 0 }
    else { type := 3, int64 := 0, double := 0, text := [0x61, 0, 0x62, 0], blob := [], bytes := 3 }]
  done := true
  changes := 0
  lastRowid := 0
  errmsg := ""

theorem query_all_or_nothing_numbered :
    ((({ Conn.new with db := some 0 }).query 0 .clear none numbered).2.2.1).IsTable 1 2
      fun _ c => if c = 0 then .int (-7) else .text [0x61, 0, 0x62] := by
  refine (query_all_or_nothing { Conn.new with db := some 0 } 0 .clear none numbered
    (fun _ c => if c = 0 then .int (-7) else .text [0x61, 0, 0x62]) ?_).2.2 rfl
  intro r hr c hc
  obtain rfl : r = 0 := Nat.lt_one_iff.mp hr
  have htwo : c < 2 := hc
  rcases (by omega : c = 0 ∨ c = 1) with rfl | rfl
  · exact ⟨rfl, rfl⟩
  · exact ⟨rfl, List.prefix_rfl, rfl⟩

end HighJump.Db.Sqlite
