/-
HighJump.Net.WsServerTheorems — what `async_close` of the two WebSocket
servers waits for.

`left` starts at the number of ENTRIES and is counted down by the closes
that were started. `ws_server` starts one close and returns, so the
handler is called only where that close is all there is: the list is one
open stream, or has no open stream and the loop falls through.
`ws_server_ssl` starts them all and then falls through to the call of the
handler, before a close has completed. `async_close_shutsDown_iff` is the
two cases; every call comes to its end (`exists_finished`), so the runs it
speaks of exist.
-/
import HighJump.Net.WsServer

namespace HighJump.Net.WsServer

open HighJump.Lib

/-! ## What a shutdown is -/

def Event.isHandler : Event → Bool
  | .handler _ => true
  | _ => false

def Event.isCompleted : Event → Bool
  | .completed _ => true
  | _ => false

/-- The streams of the list that are open. -/
def openConns (isOpen : Nat → Bool) (conns : List (Option Nat)) : List Nat :=
  (conns.filterMap id).filter isOpen

/-- Every open stream is closed once; the handler is called once, with no
completion behind it, and before the call returns where no stream is
open. -/
structure ShutsDown (opened : List Nat) (log : List Event) : Prop where
  closes : ∀ ws ∈ opened, log.count (.asyncClose ws) = 1
  once : log.countP Event.isHandler = 1
  last : log.Pairwise fun a b => a.isHandler = true → b.isCompleted = false
  immediate : opened = [] → log.Pairwise fun a b => a = .returned → b.isHandler = false

/-- The call is back and every close it started has completed. -/
def State.Finished (s : State) : Prop := s.phase = .done ∧ s.pending = []

section OpenConns

variable {isOpen : Nat → Bool} {ws : Nat} {rest : List (Option Nat)}

theorem openConns_closed (h : isOpen ws = false) :
    openConns isOpen (some ws :: rest) = openConns isOpen rest :=
  List.filter_cons_of_neg (by rw [h]; exact Bool.false_ne_true)

theorem openConns_open (h : isOpen ws = true) :
    openConns isOpen (some ws :: rest) = ws :: openConns isOpen rest :=
  List.filter_cons_of_pos h

end OpenConns

/-! ## Single steps -/

section Fields

variable (s : State) (handler : Bool) (e : Err) (ws : Nat)

@[simp] theorem callHandler_phase : (s.callHandler handler e).phase = s.phase := by
  cases handler <;> rfl

@[simp] theorem callHandler_pending : (s.callHandler handler e).pending = s.pending := by
  cases handler <;> rfl

@[simp] theorem complete_phase : (s.complete handler ws).phase = s.phase := by
  simp only [State.complete]
  split
  · rfl
  · rw [callHandler_phase]

@[simp] theorem complete_pending : (s.complete handler ws).pending = s.pending.erase ws := by
  simp only [State.complete]
  split
  · rfl
  · rw [callHandler_pending]

theorem complete_log : ∃ more, (s.complete handler ws).log = s.log ++ .completed ws :: more := by
  simp only [State.complete]
  split
  · exact ⟨[], rfl⟩
  · cases handler with
    | false => exact ⟨[], rfl⟩
    | true => exact ⟨[.handler .success], List.append_assoc ..⟩

/-- The close that brings `left` to 0 calls the handler. -/
theorem complete_log_last (h : s.left = 1) :
    (s.complete true ws).log = s.log ++ [.completed ws, .handler .success] := by
  have hzero : ¬ 0 < decr s.left := by
    rw [h]
    decide
  simp only [State.complete, if_neg hzero]
  exact List.append_assoc ..

/-- One that does not, does not. -/
theorem complete_log_early (h : 2 ≤ s.left) :
    (s.complete handler ws).log = s.log ++ [.completed ws] := by
  have hpos : 0 < decr s.left := by
    rw [decr, if_neg (by omega)]
    omega
  simp only [State.complete, if_pos hpos]

end Fields

/-- What is left to do: an entry of the loop can start a close, which has
to complete. -/
def State.work (s : State) : Nat :=
  (match s.phase with
    | .looping rest => 2 * rest.length + 2
    | .leaving => 1
    | .done => 0) + s.pending.length

section Progress

variable {c : Call} {s s' : State} {a : Action}

theorem exists_step (h : ¬ s.Finished) : ∃ a s', Step c s a s' := by
  cases hp : s.phase with
  | looping rest =>
    cases rest with
    | nil => exact ⟨_, _, .fallOut hp⟩
    | cons entry rest =>
      cases entry with
      | none => exact ⟨_, _, .skipNull hp⟩
      | some ws =>
        cases ho : s.isOpen ws with
        | false => exact ⟨_, _, .skipClosed hp ho⟩
        | true => exact ⟨_, _, @Step.startClose _ _ _ _ true hp ho⟩
  | leaving => exact ⟨_, _, .ret hp⟩
  | done =>
    obtain ⟨ws, hws⟩ : ∃ ws, ws ∈ s.pending :=
      List.exists_mem_of_ne_nil _ fun hnil => h ⟨hp, hnil⟩
    exact ⟨_, _, .complete hws⟩

theorem Step.work_lt (h : Step c s a s') : s'.work < s.work := by
  cases h with
  | skipNull hp | skipClosed hp _ =>
    simp only [State.work, hp, List.length_cons]
    omega
  | startClose hp _ =>
    cases c.kind <;>
      simp only [State.work, State.startClose, Kind.afterClose, hp, List.length_cons,
        List.length_append, List.length_nil] <;>
      omega
  | fallOut hp =>
    simp only [State.work, hp, callHandler_pending, List.length_nil]
    omega
  | ret hp =>
    simp only [State.work, hp]
    omega
  | complete hws =>
    have hpos := List.length_pos_of_mem hws
    simp only [State.work, complete_phase, complete_pending, List.length_erase_of_mem hws]
    omega

end Progress

/-! ## Runs that end -/

section Runs

variable {c : Call} {server : Server} {isOpen : Nat → Bool} {tr : List Action} {s : State}

/-- Every call comes to its end, whatever has happened so far. -/
theorem exists_finished (h : (closeLts c server isOpen).Run tr s) :
    ∃ more s', (closeLts c server isOpen).Run (tr ++ more) s' ∧ s'.Finished := by
  induction hn : s.work using Nat.strong_induction_on generalizing tr s with
  | _ n ih =>
    by_cases hfin : s.Finished
    · exact ⟨[], s, by rwa [List.append_nil], hfin⟩
    · obtain ⟨a, s', hs⟩ := @exists_step c s hfin
      obtain ⟨more, s'', hrun, hfin'⟩ := ih s'.work (hn ▸ hs.work_lt) (h.snoc hs) rfl
      rw [List.append_assoc] at hrun
      exact ⟨[a] ++ more, s'', hrun, hfin'⟩

/-- A call that is back is over when its closes have completed, one after
the other. -/
theorem exists_drained (h : (closeLts c server isOpen).Run tr s) (hp : s.phase = .done) :
    ∃ tr' s' later, (closeLts c server isOpen).Run tr' s' ∧ s'.Finished ∧
      s'.log = s.log ++ later ∧ ∀ ws ∈ s.pending, .completed ws ∈ later := by
  induction hn : s.pending generalizing tr s with
  | nil => exact ⟨tr, s, [], h, ⟨hp, hn⟩, (List.append_nil _).symm, fun ws hws => by cases hws⟩
  | cons ws rest ih =>
    have hmem : ws ∈ s.pending := by
      rw [hn]
      exact .head _
    have hrest : (s.complete c.handler ws).pending = rest := by
      rw [complete_pending, hn, List.erase_cons_head]
    have hdone : (s.complete c.handler ws).phase = .done := by rw [complete_phase, hp]
    obtain ⟨more, hmore⟩ := complete_log s c.handler ws
    obtain ⟨tr', s', later, hrun, hfin, hlog, hall⟩ := ih (h.snoc (.complete hmem)) hdone hrest
    refine ⟨tr', s', .completed ws :: more ++ later, hrun, hfin, ?_, ?_⟩
    · rw [hlog, hmore, List.append_assoc]
    · intro w hw
      rcases List.mem_cons.mp hw with rfl | hw
      · exact .head _
      · exact List.mem_append.mpr (.inr (hall w hw))

/-- The loop of `ws_server_ssl` can run to its end before a close
completes. -/
theorem exists_loop_end (h : (closeLts c server isOpen).Run tr s) (hk : c.kind = .wsServerSsl)
    {rest : List (Option Nat)} (hp : s.phase = .looping rest) :
    ∃ tr' s', (closeLts c server isOpen).Run tr' s' ∧ s'.phase = .looping [] ∧
      s'.pending = s.pending ++ openConns s.isOpen rest := by
  induction rest generalizing tr s with
  | nil => exact ⟨tr, s, h, hp, (List.append_nil _).symm⟩
  | cons entry rest ih =>
    cases entry with
    | none =>
      have hrest := ih (h.snoc (.skipNull hp)) rfl
      exact hrest
    | some ws =>
      cases ho : s.isOpen ws with
      | false =>
        rw [openConns_closed ho]
        have hrest := ih (h.snoc (.skipClosed hp ho)) rfl
        exact hrest
      | true =>
        have hnext : (s.startClose c.kind ws rest false).phase = .looping rest := by
          rw [hk]
          rfl
        obtain ⟨tr', s', hrun, hend, hpend⟩ :=
          ih (h.snoc (@Step.startClose _ _ _ _ false hp ho)) hnext
        refine ⟨tr', s', hrun, hend, ?_⟩
        rw [hpend, openConns_open ho]
        exact List.append_assoc ..

/-- The loop comes to the first open stream with nothing else done. -/
theorem exists_first_open (h : (closeLts c server isOpen).Run tr s)
    {rest : List (Option Nat)} (hp : s.phase = .looping rest)
    (hopen : openConns s.isOpen rest ≠ []) :
    ∃ tr' ws after, s.isOpen ws = true ∧
      (closeLts c server isOpen).Run tr' { s with phase := .looping (some ws :: after) } := by
  induction rest generalizing tr s with
  | nil => exact absurd rfl hopen
  | cons entry rest ih =>
    cases entry with
    | none =>
      have hrest := ih (h.snoc (.skipNull hp)) rfl hopen
      exact hrest
    | some ws =>
      cases ho : s.isOpen ws with
      | false =>
        rw [openConns_closed ho] at hopen
        have hrest := ih (h.snoc (.skipClosed hp ho)) rfl hopen
        exact hrest
      | true =>
        refine ⟨tr, ws, rest, ho, ?_⟩
        rw [← hp]
        exact h

end Runs

/-! ## The calls that shut down -/

/-- The course of a call that finds no open stream. -/
structure FallsThrough (s : State) : Prop where
  pending : s.pending = []
  looping : ∀ rest, s.phase = .looping rest → openConns s.isOpen rest = [] ∧ s.log = []
  leaving : s.phase = .leaving → s.log = [.handler .success]
  done : s.phase = .done → s.log = [.handler .success, .returned]

/-- The course of a call of `ws_server` whose list is one open stream. -/
structure ClosesOne (ws : Nat) (s : State) : Prop where
  looping : ∀ rest, s.phase = .looping rest →
    rest = [some ws] ∧ s.isOpen ws = true ∧ s.pending = [] ∧ s.left = 1 ∧ s.log = []
  leaving : s.phase = .leaving →
    (s.pending = [ws] ∧ s.left = 1 ∧ s.log = [.asyncClose ws]) ∨
    (s.pending = [] ∧ s.log = [.asyncClose ws, .completed ws, .handler .success])
  done : s.phase = .done →
    (s.pending = [ws] ∧ s.left = 1 ∧ s.log = [.asyncClose ws, .returned]) ∨
    (s.pending = [] ∧ (s.log = [.asyncClose ws, .completed ws, .handler .success, .returned] ∨
      s.log = [.asyncClose ws, .returned, .completed ws, .handler .success]))

section Courses

variable {c : Call} {s s' : State} {a : Action}

theorem FallsThrough.step (hh : c.handler = true) (h : FallsThrough s) (hs : Step c s a s') :
    FallsThrough s' := by
  cases hs with
  | skipNull hp =>
    have hloop := h.looping _ hp
    exact ⟨h.pending, fun rest hr => (by cases hr; exact hloop), fun hl => (by cases hl),
      fun hd => (by cases hd)⟩
  | skipClosed hp ho =>
    have hloop := h.looping _ hp
    rw [openConns_closed ho] at hloop
    exact ⟨h.pending, fun rest hr => (by cases hr; exact hloop), fun hl => (by cases hl),
      fun hd => (by cases hd)⟩
  | startClose hp ho =>
    have hloop := h.looping _ hp
    rw [openConns_open ho] at hloop
    cases hloop.1
  | fallOut hp =>
    have hloop := h.looping _ hp
    rw [hh]
    refine ⟨h.pending, fun rest hr => (by cases hr), fun _ => ?_, fun hd => (by cases hd)⟩
    exact congrArg (· ++ [Event.handler .success]) hloop.2
  | ret hp =>
    refine ⟨h.pending, fun rest hr => (by cases hr), fun hl => (by cases hl), fun _ => ?_⟩
    exact congrArg (· ++ [Event.returned]) (h.leaving hp)
  | complete hws =>
    rw [h.pending] at hws
    cases hws

theorem ClosesOne.complete {ws w : Nat} (h : ClosesOne ws s) (hw : w ∈ s.pending) :
    ClosesOne ws (s.complete true w) := by
  have hlast : s.pending = [ws] → s.left = 1 → w = ws ∧
      (s.complete true w).pending = [] ∧
      (s.complete true w).log = s.log ++ [.completed w, .handler .success] := by
    intro hp hl
    rw [hp] at hw
    have hw := List.mem_singleton.mp hw
    refine ⟨hw, ?_, complete_log_last s w hl⟩
    rw [complete_pending, hp, hw, List.erase_cons_head]
  have hnone : s.pending ≠ [] := fun hnil => by
    rw [hnil] at hw
    cases hw
  refine ⟨?_, ?_, ?_⟩
  · intro rest hr
    rw [complete_phase] at hr
    exact absurd (h.looping rest hr).2.2.1 hnone
  · intro hl
    rw [complete_phase] at hl
    rcases h.leaving hl with ⟨hp, hone, hlog⟩ | ⟨hp, -⟩
    · obtain ⟨rfl, hpend, hlog'⟩ := hlast hp hone
      rw [hlog] at hlog'
      exact .inr ⟨hpend, hlog'⟩
    · exact absurd hp hnone
  · intro hd
    rw [complete_phase] at hd
    rcases h.done hd with ⟨hp, hone, hlog⟩ | ⟨hp, -⟩
    · obtain ⟨rfl, hpend, hlog'⟩ := hlast hp hone
      rw [hlog] at hlog'
      exact .inr ⟨hpend, .inr hlog'⟩
    · exact absurd hp hnone

theorem ClosesOne.step {ws : Nat} (hk : c.kind = .wsServer) (hh : c.handler = true)
    (h : ClosesOne ws s) (hs : Step c s a s') : ClosesOne ws s' := by
  cases hs with
  | skipNull hp => cases (h.looping _ hp).1
  | skipClosed hp ho =>
    obtain ⟨hrest, hopen, -⟩ := h.looping _ hp
    cases hrest
    rw [hopen] at ho
    cases ho
  | startClose hp _ =>
    obtain ⟨hrest, -, hpend, hleft, hlog⟩ := h.looping _ hp
    cases hrest
    refine ⟨fun rest hr => ?_, fun _ => .inl ⟨?_, hleft, ?_⟩, fun hd => ?_⟩
    · rw [hk] at hr
      cases hr
    · exact congrArg (· ++ [ws]) hpend
    · exact congrArg (· ++ [Event.asyncClose ws]) hlog
    · rw [hk] at hd
      cases hd
  | fallOut hp => cases (h.looping _ hp).1
  | ret hp =>
    refine ⟨fun rest hr => (by cases hr), fun hl => (by cases hl), fun _ => ?_⟩
    rcases h.leaving hp with ⟨hpend, hleft, hlog⟩ | ⟨hpend, hlog⟩
    · exact .inl ⟨hpend, hleft, congrArg (· ++ [Event.returned]) hlog⟩
    · exact .inr ⟨hpend, .inl (congrArg (· ++ [Event.returned]) hlog)⟩
  | complete hws =>
    rw [hh]
    exact h.complete hws

end Courses

section First

variable {kind : Kind} {conns : List (Option Nat)} {isOpen : Nat → Bool} {server : Server}

/-- The first call of a server goes into its loop. -/
theorem enter_first {c : Call} (hfirst : server.closed = false) :
    State.enter c server isOpen =
      { server := server.shut, isOpen := isOpen, left := c.conns.length,
        phase := .looping c.conns, pending := [], log := [] } := by
  rw [State.enter, hfirst]
  rfl

/-- A call of a server that was closed tells its handler so and starts
nothing. -/
theorem run_again {c : Call} {tr : List Action} {s : State} (hagain : server.closed = true)
    (hh : c.handler = true) (h : (closeLts c server isOpen).Run tr s) :
    s.server = server ∧ s.pending = [] ∧
      ((s.phase = .leaving ∧ s.log = [.handler .notConnected]) ∨
        (s.phase = .done ∧ s.log = [.handler .notConnected, .returned])) := by
  induction h with
  | start hs =>
    obtain rfl := hs
    rw [State.enter, hagain, hh]
    exact ⟨rfl, rfl, .inl ⟨rfl, rfl⟩⟩
  | snoc _ hs ih =>
    obtain ⟨hserver, hpend, ⟨hph, hlog⟩ | ⟨hph, hlog⟩⟩ := ih
    · cases hs with
      | ret _ => exact ⟨hserver, hpend, .inr ⟨rfl, congrArg (· ++ [Event.returned]) hlog⟩⟩
      | complete hws => rw [hpend] at hws; cases hws
      | skipNull hp | skipClosed hp _ | startClose hp _ | fallOut hp => rw [hph] at hp; cases hp
    · cases hs with
      | complete hws => rw [hpend] at hws; cases hws
      | skipNull hp | skipClosed hp _ | startClose hp _ | fallOut hp | ret hp =>
        rw [hph] at hp; cases hp

theorem run_fallsThrough {tr : List Action} {s : State} (hfirst : server.closed = false)
    (hopen : openConns isOpen conns = [])
    (h : (closeLts ⟨kind, true, conns⟩ server isOpen).Run tr s) : FallsThrough s := by
  refine Lts.Run.invariant (I := fun _ s => FallsThrough s) ?_
    (fun _ _ _ _ _ hi hs => hi.step rfl hs) h
  intro s hs
  obtain rfl := hs
  rw [enter_first hfirst]
  exact ⟨rfl, fun rest hr => (by cases hr; exact ⟨hopen, rfl⟩), fun hl => (by cases hl),
    fun hd => (by cases hd)⟩

theorem run_closesOne {tr : List Action} {s : State} {ws : Nat} (hfirst : server.closed = false)
    (hopen : isOpen ws = true)
    (h : (closeLts ⟨.wsServer, true, [some ws]⟩ server isOpen).Run tr s) : ClosesOne ws s := by
  refine Lts.Run.invariant (I := fun _ s => ClosesOne ws s) ?_
    (fun _ _ _ _ _ hi hs => hi.step rfl rfl hs) h
  intro s hs
  obtain rfl := hs
  rw [enter_first hfirst]
  exact ⟨fun rest hr => (by cases hr; exact ⟨rfl, hopen, rfl, rfl, rfl⟩), fun hl => (by cases hl),
    fun hd => (by cases hd)⟩

theorem shutsDown_none : ShutsDown [] [.handler .success, .returned] where
  closes := fun ws hws => by cases hws
  once := rfl
  last := by decide
  immediate := fun _ => by decide

theorem shutsDown_one {ws : Nat} {log : List Event}
    (h : log = [.asyncClose ws, .completed ws, .handler .success, .returned] ∨
      log = [.asyncClose ws, .returned, .completed ws, .handler .success]) :
    ShutsDown [ws] log := by
  refine ⟨fun w hw => ?_, ?_, ?_, fun hnil => (by cases hnil)⟩
  · obtain rfl := List.mem_singleton.mp hw
    rcases h with rfl | rfl <;> simp
  · rcases h with rfl | rfl <;> rfl
  · rcases h with rfl | rfl <;> simp [Event.isHandler, Event.isCompleted]

/-! ## The calls that do not -/

/-- `ws_server` with an open stream and more than one entry: a run in
which the handler is not called. -/
theorem exists_unanswered (hfirst : server.closed = false) (hlen : 2 ≤ conns.length)
    (hopen : openConns isOpen conns ≠ []) :
    ∃ tr s, (closeLts ⟨.wsServer, true, conns⟩ server isOpen).Run tr s ∧ s.Finished ∧
      s.log.countP Event.isHandler = 0 := by
  have hstart := Lts.Run.start (M := closeLts ⟨.wsServer, true, conns⟩ server isOpen) rfl
  rw [enter_first hfirst] at hstart
  obtain ⟨tr, ws, after, ho, hrun⟩ := exists_first_open hstart rfl hopen
  have hclose := hrun.snoc (@Step.startClose _ _ _ _ true rfl ho)
  have hret := hclose.snoc (.ret rfl)
  have hdone := hret.snoc (.complete (List.mem_singleton_self ws))
  refine ⟨_, _, hdone, ⟨complete_phase .., ?_⟩, ?_⟩
  · rw [complete_pending]
    exact List.erase_cons_head ..
  · rw [complete_log_early _ _ _ hlen]
    rfl

/-- `ws_server_ssl` with an open stream: a run in which a close completes
behind the call of the handler. -/
theorem exists_early (hfirst : server.closed = false) (hopen : openConns isOpen conns ≠ []) :
    ∃ tr s ws later, (closeLts ⟨.wsServerSsl, true, conns⟩ server isOpen).Run tr s ∧ s.Finished ∧
      .completed ws ∈ later ∧ ∃ before, s.log = before ++ .handler .success :: later := by
  have hstart := Lts.Run.start (M := closeLts ⟨.wsServerSsl, true, conns⟩ server isOpen) rfl
  rw [enter_first hfirst] at hstart
  obtain ⟨tr, s, hloop, hp, hpend⟩ := exists_loop_end hstart rfl rfl
  obtain ⟨ws, hws⟩ : ∃ ws, ws ∈ s.pending := by
    rw [hpend]
    exact List.exists_mem_of_ne_nil _ hopen
  have hret := (hloop.snoc (.fallOut hp)).snoc (.ret rfl)
  obtain ⟨tr', s', later, hrun, hfin, hlog, hall⟩ := exists_drained hret rfl
  refine ⟨tr', s', ws, .returned :: later, hrun, hfin, .tail _ (hall ws hws), s.log, ?_⟩
  rw [hlog]
  show (s.log ++ [.handler .success]) ++ [.returned] ++ later = _
  rw [List.append_assoc, List.append_assoc]
  rfl

/-- **Shutting down a WebSocket server**: in every order of the
completions the handler is called once, behind the last of them, with
every open stream closed once, exactly where no stream of the list is
open, or where the class is `ws_server` and the list is one stream. -/
theorem async_close_shutsDown_iff (hfirst : server.closed = false) :
    (∀ tr s, (closeLts ⟨kind, true, conns⟩ server isOpen).Run tr s → s.Finished →
      ShutsDown (openConns isOpen conns) s.log) ↔
    openConns isOpen conns = [] ∨ (kind = .wsServer ∧ ∃ ws, conns = [some ws]) := by
  constructor
  · intro hall
    by_cases hopen : openConns isOpen conns = []
    · exact .inl hopen
    · refine .inr ?_
      cases kind with
      | wsServer =>
        refine ⟨rfl, ?_⟩
        by_cases hlen : 2 ≤ conns.length
        · obtain ⟨tr, s, hrun, hfin, hcount⟩ := exists_unanswered hfirst hlen hopen
          have honce := (hall tr s hrun hfin).once
          omega
        · cases conns with
          | nil => exact absurd rfl hopen
          | cons entry rest =>
            obtain rfl : rest = [] := List.eq_nil_of_length_eq_zero (by
              rw [List.length_cons] at hlen
              omega)
            cases entry with
            | none => exact absurd rfl hopen
            | some ws => exact ⟨ws, rfl⟩
      | wsServerSsl =>
        obtain ⟨tr, s, ws, later, hrun, hfin, hmem, before, hlog⟩ := exists_early hfirst hopen
        have hlast := (hall tr s hrun hfin).last
        rw [hlog, List.pairwise_append] at hlast
        have hfalse := (List.pairwise_cons.mp hlast.2.1).1 _ hmem rfl
        cases hfalse
  · intro hcond tr s hrun hfin
    by_cases hopen : openConns isOpen conns = []
    · rw [hopen, (run_fallsThrough hfirst hopen hrun).done hfin.1]
      exact shutsDown_none
    · obtain ⟨rfl, ws, rfl⟩ := hcond.resolve_left hopen
      have ho : isOpen ws = true := by
        by_contra hclosed
        exact hopen (openConns_closed (Bool.eq_false_iff.mpr hclosed))
      rw [openConns_open ho]
      rcases (run_closesOne hfirst ho hrun).done hfin.1 with ⟨hpend, -⟩ | ⟨-, hlog⟩
      · rw [hfin.2] at hpend
        cases hpend
      · exact shutsDown_one hlog

end First

/-- A server that listens. -/
def listening : Server := ⟨false, true, some ("127.0.0.1", 8080)⟩

/-- `ws_server` and one open stream. -/
theorem async_close_one : listening.closed = false ∧ ∀ tr s,
    (closeLts ⟨.wsServer, true, [some 1]⟩ listening fun _ => true).Run tr s → s.Finished →
    ShutsDown [1] s.log :=
  ⟨rfl, (async_close_shutsDown_iff rfl).mpr (.inr ⟨rfl, 1, rfl⟩)⟩

/-- With two open streams `ws_server` closes the first and calls no
handler; with one, `ws_server_ssl` calls it before the close has
completed, and again behind it. -/
theorem async_close_fails :
    (∃ tr s, (closeLts ⟨.wsServer, true, [some 1, some 2]⟩ listening fun _ => true).Run tr s ∧
      s.Finished ∧ s.log = [.asyncClose 1, .returned, .completed 1] ∧
      ¬ ShutsDown [1, 2] s.log) ∧
    (∃ tr s, (closeLts ⟨.wsServerSsl, true, [some 1]⟩ listening fun _ => true).Run tr s ∧
      s.Finished ∧
      s.log = [.asyncClose 1, .handler .success, .returned, .completed 1, .handler .success] ∧
      ¬ ShutsDown [1] s.log) := by
  constructor
  · have hclose := (Lts.Run.start (M := closeLts ⟨.wsServer, true, [some 1, some 2]⟩ listening
      fun _ => true) rfl).snoc (@Step.startClose _ _ 1 [some 2] true rfl rfl)
    have hdone := (hclose.snoc (.ret rfl)).snoc (.complete (List.mem_singleton_self 1))
    refine ⟨_, _, hdone, ⟨rfl, rfl⟩, rfl, fun h => ?_⟩
    have hfalse : 0 = 1 := h.once
    omega
  · have hclose := (Lts.Run.start (M := closeLts ⟨.wsServerSsl, true, [some 1]⟩ listening
      fun _ => true) rfl).snoc (@Step.startClose _ _ 1 [] true rfl rfl)
    have hret := (hclose.snoc (.fallOut rfl)).snoc (.ret rfl)
    have hdone := hret.snoc (.complete (List.mem_singleton_self 1))
    refine ⟨_, _, hdone, ⟨rfl, rfl⟩, rfl, fun h => ?_⟩
    have hfalse : 2 = 1 := h.once
    omega

end HighJump.Net.WsServer
