/-
HighJump.Db.ConnPool — `hj::db_conn_pool` of `hj/db/db_conn_pool.hpp` as a
system of threads.

The atomic steps are the ones the source makes atomic: each section
under `_mu`, the compare-exchange on `_closed` (which is NOT under `_mu`,
so a close can land between any two sections of an acquire), and the
calls of `_make` and `_check`, which run unlocked. `acquire` is cut at
those points into the stages of `Stage`; each thread is in at most one
call and may own any number of handles from earlier calls.

`create` runs `_init` before anyone else can see the pool, so the system
starts in a boot phase where only `_init` moves (`Boot`).

Sizes are `size_t` in the source and `UInt64` here: `_total_cnt--` wraps
at zero, and that it never does is a theorem, not an assumption. Time is
left open: what `wait_for` and the `elapsed` computations see is chosen
by the environment, label by label. The factory and the check are
likewise the environment's: `_make` may hand out any connection that is
not alive, answer null or throw, `_check` may answer either way or throw.

Not modelled: the destruction of the pool object itself (a handle that
outlives it releases nothing) and the condition variable's wake-ups,
which only decide when a blocked section is tried again.
-/
import HighJump.Lib.Lts
import Mathlib.Data.Fintype.BigOperators

namespace HighJump.Db.ConnPool

open HighJump.Lib

/-! ## The pool object -/

/-- The fields of `db_conn_pool` that change, with its two constants. The
bound is what the constructor's initialiser for `_min_size` establishes. -/
structure Pool (C : Type) where
  capa : UInt64
  minSize : UInt64
  minSize_le : minSize ≤ capa
  hasCheck : Bool
  queue : List C
  closed : Bool
  totalCnt : UInt64

variable {C : Type}

/-- The constructor. -/
def Pool.new (capa minSize : UInt64) (hasCheck : Bool) : Pool C where
  capa := capa
  minSize := if minSize > capa then capa else minSize
  minSize_le := by
    split
    · exact UInt64.le_refl _
    · rename_i h; exact UInt64.not_lt.mp h
  hasCheck := hasCheck
  queue := []
  closed := false
  totalCnt := 0

/-- `idle()`. -/
def Pool.idle (p : Pool C) : UInt64 := UInt64.ofNat p.queue.length

/-- `active()`. -/
def Pool.active (p : Pool C) : UInt64 := p.totalCnt - p.idle

/-- `wait_cond` of `acquire`. -/
def Pool.waitCond (p : Pool C) : Bool :=
  !p.queue.isEmpty || p.closed || p.totalCnt < p.capa

/-- How the first section of `acquire` ends. -/
inductive Entry (C : Type) where
  /-- `return nullptr`. -/
  | null
  /-- An idle connection was popped. -/
  | popped (c : C)
  /-- A slot was counted, the connection is still to be made. -/
  | createNew

/-- The first section of `acquire` once its wait is over. -/
def Pool.take (p : Pool C) : Pool C × Entry C :=
  if p.closed then (p, .null)
  else
    match p.queue with
    | c :: rest => ({ p with queue := rest }, .popped c)
    | [] =>
        if p.totalCnt < p.capa then ({ p with totalCnt := p.totalCnt + 1 }, .createNew)
        else (p, .null)

/-- The first section of `acquire`, with `remaining_ms`. `none` is a wait
without limit whose condition does not hold; with a positive limit and a
condition that does not hold the section is tried again when the limit
has run out. -/
def Pool.enter (p : Pool C) (remainingMs : Int) : Option (Pool C × Entry C) :=
  if remainingMs < 0 then
    if p.waitCond then some p.take else none
  else if remainingMs > 0 then
    if p.waitCond then some p.take else some (p, .null)
  else if p.queue.isEmpty && p.totalCnt ≥ p.capa then some (p, .null)
  else some p.take

/-- The section that gives a counted slot back after `_make` or `_check`
failed. -/
def Pool.dropSlot (p : Pool C) : Pool C := { p with totalCnt := p.totalCnt - 1 }

/-- `if(_total_cnt > 0) _total_cnt--`, as the shutdown paths do it. -/
def Pool.dropSlotGuarded (p : Pool C) : Pool C :=
  if p.totalCnt > 0 then p.dropSlot else p

/-- The last section of `acquire`: whether the connection may be handed
out. -/
def Pool.confirm (p : Pool C) : Pool C × Bool :=
  if p.closed then (p.dropSlotGuarded, false) else (p, true)

/-- The section of `_release`. -/
def Pool.release (p : Pool C) (c : C) : Pool C :=
  if !p.closed then
    if p.idle < p.minSize then { p with queue := p.queue ++ [c] } else p.dropSlot
  else p.dropSlotGuarded

/-- The section of `close`. -/
def Pool.drain (p : Pool C) : Pool C :=
  { p with totalCnt := p.totalCnt - p.idle, queue := [] }

/-- The section of `_init`. -/
def Pool.initPush (p : Pool C) (c : C) : Pool C :=
  { p with queue := p.queue ++ [c], totalCnt := p.totalCnt + 1 }

/-! ## Calls in progress -/

/-- Where an `acquire` is. -/
inductive Stage (C : Type) where
  /-- Before, or waiting inside, its first section. -/
  | waiting (remainingMs : Int)
  /-- Holding a slot, calling `_make`. -/
  | making
  /-- Holding a slot, `_make` gave no connection. -/
  | makeFailed
  /-- Holding a slot and a connection, calling `_check`. -/
  | checking (c : C)
  /-- Holding a slot, the connection did not pass. -/
  | invalid (c : C)
  /-- Holding a slot and a checked connection, before its last section. -/
  | valid (c : C)
  /-- Past its last section, building the handle. -/
  | yielding (c : C)

/-- Where a thread is. -/
inductive Pc (C : Type) where
  | idle
  | acquiring (timeoutMs : Int) (stage : Stage C)
  /-- Inside `close`, the flag won, before its section. -/
  | closing

/-- The slots a thread's call holds. -/
def Pc.slots : Pc C → Nat
  | .acquiring _ (.waiting _) => 0
  | .acquiring _ _ => 1
  | _ => 0

/-- The connection a thread's call holds. -/
def Pc.conn? : Pc C → Option C
  | .acquiring _ (.checking c) => some c
  | .acquiring _ (.invalid c) => some c
  | .acquiring _ (.valid c) => some c
  | .acquiring _ (.yielding c) => some c
  | _ => none

/-- The state of `create`: `_init` at loop index `i`, `_init` with a
connection to push, or the pool is out. -/
inductive Boot (C : Type) where
  | making (i : UInt64)
  | pushing (i : UInt64) (c : C)
  | done

/-- The connection `_init` holds. -/
def Boot.conn? : Boot C → Option C
  | .pushing _ c => some c
  | _ => none

/-- What a call of the factory answers. -/
inductive MakeResult (C : Type) where
  | conn (c : C)
  | null
  | threw

/-- The connection the caller of the factory goes on with; an exception
is caught and read as null. -/
def MakeResult.conn? : MakeResult C → Option C
  | .conn c => some c
  | _ => none

/-- What a call of the check answers. -/
inductive CheckResult where
  | yes
  | no
  | threw
  deriving DecidableEq

/-- `valid` after the call; an exception is caught and read as false. -/
def CheckResult.valid : CheckResult → Bool
  | .yes => true
  | _ => false

/-- One pool, the threads `τ` using it and the handles alive. -/
structure Sys (τ C : Type) where
  pool : Pool C
  boot : Boot C
  pc : τ → Pc C
  handles : List C

/-- The atomic steps, each with what the environment chose for it. -/
inductive Action (τ C : Type) where
  | initMake (r : MakeResult C)
  | initPush
  | begin (t : τ) (timeoutMs : Int)
  | enter (t : τ)
  | make (t : τ) (r : MakeResult C)
  | check (t : τ) (r : CheckResult)
  | dropSlot (t : τ) (elapsedMs : Int)
  | confirm (t : τ)
  | yield (t : τ)
  | release (c : C)
  | closeCas (t : τ)
  | closeDrain (t : τ)

variable {τ : Type} [DecidableEq τ] [Fintype τ] [DecidableEq C]

/-- Whether a place that holds `o` holds `c`, as a count. -/
def held (o : Option C) (c : C) : Nat := if o = some c then 1 else 0

/-- How many places hold a connection: the queue, the live handles, the
acquires in progress and `_init`. -/
def Sys.owners (s : Sys τ C) (c : C) : Nat :=
  s.pool.queue.count c + s.handles.count c + (∑ t, held (s.pc t).conn? c)
    + held s.boot.conn? c

/-- A connection the factory may hand out: none that is alive. -/
def Sys.freshResult (s : Sys τ C) (r : MakeResult C) : Bool :=
  match r.conn? with
  | some c => s.owners c = 0
  | none => true

/-- Thread `t` goes on at `pc`, with the pool at `p`. -/
def Sys.goto (s : Sys τ C) (p : Pool C) (t : τ) (pc : Pc C) : Sys τ C :=
  { s with pool := p, pc := Function.update s.pc t pc }

/-- Where `acquire` goes after it gave a slot back: another round, or
`return nullptr` when its time is up. -/
def afterDrop (timeoutMs elapsedMs : Int) : Pc C :=
  if timeoutMs ≥ 0 then
    if timeoutMs - elapsedMs ≤ 0 then .idle
    else .acquiring timeoutMs (.waiting (timeoutMs - elapsedMs))
  else .acquiring timeoutMs (.waiting timeoutMs)

/-- The loop head of `_init`: on to the next connection, or out. -/
def bootAt (p : Pool C) (i : UInt64) : Boot C := if i < p.minSize then .making i else .done

/-- A step of `_init`. -/
def Sys.stepBoot (s : Sys τ C) : Action τ C → Option (Sys τ C)
  | .initMake r =>
      match s.boot with
      | .making i =>
          if s.freshResult r then
            match r.conn? with
            | some c => some { s with boot := .pushing i c }
            | none => some { s with boot := bootAt s.pool (i + 1) }
          else none
      | _ => none
  | .initPush =>
      match s.boot with
      | .pushing i c => some { s with pool := s.pool.initPush c, boot := bootAt s.pool (i + 1) }
      | _ => none
  | _ => none

/-- A step of `acquire` by thread `t`, which is at `stage`. -/
def Sys.stepAcquire (s : Sys τ C) (t : τ) (timeoutMs : Int) (stage : Stage C) :
    Action τ C → Option (Sys τ C)
  | .enter _ =>
      match stage with
      | .waiting remainingMs =>
          (s.pool.enter remainingMs).map fun
            | (p, .null) => s.goto p t .idle
            | (p, .popped c) => s.goto p t (.acquiring timeoutMs (.checking c))
            | (p, .createNew) => s.goto p t (.acquiring timeoutMs .making)
      | _ => none
  | .make _ r =>
      match stage with
      | .making =>
          if s.freshResult r then
            match r.conn? with
            | some c => some (s.goto s.pool t (.acquiring timeoutMs (.checking c)))
            | none => some (s.goto s.pool t (.acquiring timeoutMs .makeFailed))
          else none
      | _ => none
  | .check _ r =>
      match stage with
      | .checking c =>
          -- without a check function a connection that is there is valid
          if r.valid || !s.pool.hasCheck then
            some (s.goto s.pool t (.acquiring timeoutMs (.valid c)))
          else some (s.goto s.pool t (.acquiring timeoutMs (.invalid c)))
      | _ => none
  | .dropSlot _ elapsedMs =>
      match stage with
      | .makeFailed => some (s.goto s.pool.dropSlot t (afterDrop timeoutMs elapsedMs))
      | .invalid _ => some (s.goto s.pool.dropSlot t (afterDrop timeoutMs elapsedMs))
      | _ => none
  | .confirm _ =>
      match stage with
      | .valid c =>
          match s.pool.confirm with
          | (p, true) => some (s.goto p t (.acquiring timeoutMs (.yielding c)))
          | (p, false) => some (s.goto p t .idle)
      | _ => none
  | .yield _ =>
      match stage with
      | .yielding c => some { s.goto s.pool t .idle with handles := c :: s.handles }
      | _ => none
  | _ => none

/-- The thread whose call an action belongs to. -/
def Action.thread? : Action τ C → Option τ
  | .begin t _ | .enter t | .make t _ | .check t _ | .dropSlot t _ | .confirm t | .yield t
  | .closeCas t | .closeDrain t => some t
  | _ => none

/-- A step of thread `t`. -/
def Sys.stepThread (s : Sys τ C) (t : τ) (a : Action τ C) : Option (Sys τ C) :=
  match s.pc t with
  | .idle =>
      match a with
      | .begin _ timeoutMs =>
          some (s.goto s.pool t (.acquiring timeoutMs (.waiting timeoutMs)))
      | .closeCas _ =>
          if s.pool.closed then some s
          else some (s.goto { s.pool with closed := true } t .closing)
      | _ => none
  | .acquiring timeoutMs stage => s.stepAcquire t timeoutMs stage a
  | .closing =>
      match a with
      | .closeDrain _ => some (s.goto s.pool.drain t .idle)
      | _ => none

/-- The step function. Until `_init` is done only `_init` moves. -/
def Sys.step (s : Sys τ C) (a : Action τ C) : Option (Sys τ C) :=
  match s.boot with
  | .done =>
      match a with
      | .release c =>
          if c ∈ s.handles then
            some { s with pool := s.pool.release c, handles := s.handles.erase c }
          else none
      | _ => a.thread?.bind fun t => s.stepThread t a
  | _ => s.stepBoot a

/-- The system from a call of `create` on. -/
def lts (τ C : Type) [DecidableEq τ] [Fintype τ] [DecidableEq C] :
    Lts (Sys τ C) (Action τ C) where
  init s := ∃ capa minSize hasCheck, s.pool = Pool.new capa minSize hasCheck ∧
    s.boot = bootAt s.pool 0 ∧ (∀ t, s.pc t = .idle) ∧ s.handles = []
  step s a s' := s.step a = some s'

end HighJump.Db.ConnPool
