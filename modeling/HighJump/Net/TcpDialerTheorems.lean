/-
HighJump.Net.TcpDialerTheorems — what a dialer's table is good for.

`Inv` ties the table to the sockets the callers have: what is in the
table was handed out, and what was handed out and is still connected is
in the table, unless `_add` had refused it. A socket that a call is
still connecting was handed to nobody, which is why opening it disturbs
nothing; a socket that leaves the table through `remove` is closed by
then.

The size check is `size() > _max_size`, so the table takes one socket
more than it is told (`full_reached`).
-/
import HighJump.Net.TcpDialer
import Mathlib.Data.List.Nodup
import Mathlib.Tactic.Common

namespace HighJump.Net.TcpDialer

open HighJump.Lib

/-- The socket a call connects and has not handed out. -/
def Phase.pending : Phase → Option Nat
  | .connecting sock _ | .connected sock _ => some sock
  | _ => none

structure Inv (maxSize : Nat) (s : State) : Prop where
  nodup : s.socks.Nodup
  bound : s.socks.length ≤ maxSize + 1
  tracked : ∀ k ∈ s.socks, k ∈ s.handed
  made : ∀ k ∈ s.handed, k < s.made
  pendingNew : ∀ i k, (s.calls i).pending = some k → k < s.made ∧ k ∉ s.handed
  pendingOnce : ∀ i j k, (s.calls i).pending = some k → (s.calls j).pending = some k → i = j
  removing : ∀ i k, s.calls i = .removing k → k ∈ s.handed
  closed : ∀ i k, s.calls i = .closed k → k ∈ s.handed ∧ s.isConnected k = false
  connected : ∀ k ∈ s.handed, s.isConnected k = true → k ∈ s.socks ∨ k ∈ s.untracked

section Invariant

variable {maxSize : Nat} {s s' : State} {a : Event} {i sock : Nat} {async : Bool}

theorem inv_new : Inv maxSize .new where
  nodup := List.nodup_nil
  bound := Nat.zero_le _
  tracked := by simp [State.new]
  made := by simp [State.new]
  pendingNew := by simp [State.new, Phase.pending]
  pendingOnce := by simp [State.new, Phase.pending]
  removing := by simp [State.new]
  closed := by simp [State.new]
  connected := by simp [State.new]

/-- A call goes on to a phase in which it has no socket of its own. -/
theorem Inv.setCall (h : Inv maxSize s) {phase : Phase} (hpending : phase.pending = none)
    (hremoving : ∀ k, phase = .removing k → k ∈ s.handed)
    (hclosed : ∀ k, phase = .closed k → k ∈ s.handed ∧ s.isConnected k = false) :
    Inv maxSize (s.setCall i phase) := by
  have hold : ∀ j k, ((s.setCall i phase).calls j).pending = some k →
      (s.calls j).pending = some k := by
    intro j k hk
    by_cases hj : j = i
    · subst hj; simp [State.setCall, hpending] at hk
    · simpa [State.setCall, hj] using hk
  refine ⟨h.nodup, h.bound, h.tracked, h.made, fun j k hk => h.pendingNew j k (hold j k hk),
    fun j j' k hk hk' => h.pendingOnce j j' k (hold j k hk) (hold j' k hk'), fun j k hk => ?_,
    fun j k hk => ?_, h.connected⟩
  · by_cases hj : j = i
    · subst hj; exact hremoving k (by simpa [State.setCall] using hk)
    · exact h.removing j k (by simpa [State.setCall, hj] using hk)
  · by_cases hj : j = i
    · subst hj; exact hclosed k (by simpa [State.setCall] using hk)
    · exact h.closed j k (by simpa [State.setCall, hj] using hk)

/-- A socket is closed; the table stays as it is. -/
theorem Inv.closeSock (h : Inv maxSize s) (sock : Nat) : Inv maxSize (s.closeSock sock) := by
  have hoff : ∀ k, (s.closeSock sock).isConnected k = true → s.isConnected k = true := by
    intro k hk
    by_cases hkey : k = sock
    · subst hkey; simp [State.closeSock] at hk
    · simpa [State.closeSock, hkey] using hk
  refine ⟨h.nodup, h.bound, h.tracked, h.made, h.pendingNew, h.pendingOnce, h.removing,
    fun j k hk => ⟨(h.closed j k hk).1, ?_⟩, fun k hk hon => h.connected k hk (hoff k hon)⟩
  by_cases hon : (s.closeSock sock).isConnected k = true
  · exact absurd (hoff k hon) (by simp [(h.closed j k hk).2])
  · simpa using hon

/-- A new socket for a call. -/
theorem Inv.dial (h : Inv maxSize s) (hidle : s.calls i = .idle) (async : Bool) :
    Inv maxSize (s.dial maxSize i async) := by
  unfold State.dial
  split
  · exact h
  have hcases : ∀ j k, (Function.update s.calls i (.connecting s.made async) j).pending = some k →
      (j = i ∧ k = s.made) ∨ (j ≠ i ∧ (s.calls j).pending = some k) := by
    intro j k hk
    by_cases hj : j = i
    · subst hj; simp [Phase.pending] at hk; exact .inl ⟨rfl, hk.symm⟩
    · exact .inr ⟨hj, by simpa [hj] using hk⟩
  refine ⟨h.nodup, h.bound, h.tracked, fun k hk => Nat.lt_succ_of_lt (h.made k hk), ?_, ?_, ?_, ?_,
    h.connected⟩
  · intro j k hk
    rcases hcases j k hk with ⟨-, rfl⟩ | ⟨-, hold⟩
    · exact ⟨Nat.lt_succ_self _, fun hmem => Nat.lt_irrefl _ (h.made _ hmem)⟩
    · exact ⟨Nat.lt_succ_of_lt (h.pendingNew j k hold).1, (h.pendingNew j k hold).2⟩
  · intro j j' k hk hk'
    rcases hcases j k hk with ⟨rfl, rfl⟩ | ⟨-, hold⟩
    · rcases hcases j' _ hk' with ⟨rfl, -⟩ | ⟨-, hold'⟩
      · rfl
      · exact absurd (h.pendingNew j' _ hold').1 (Nat.lt_irrefl _)
    · rcases hcases j' k hk' with ⟨-, rfl⟩ | ⟨-, hold'⟩
      · exact absurd (h.pendingNew j _ hold).1 (Nat.lt_irrefl _)
      · exact h.pendingOnce j j' k hold hold'
  · intro j k hk
    by_cases hj : j = i
    · subst hj; simp [State.setCall] at hk
    · exact h.removing j k (by simpa [State.setCall, hj] using hk)
  · intro j k hk
    by_cases hj : j = i
    · subst hj; simp [State.setCall] at hk
    · exact h.closed j k (by simpa [State.setCall, hj] using hk)

/-- The socket that is opened was handed to nobody. -/
theorem Inv.connectDone (h : Inv maxSize s) (hcall : s.calls i = .connecting sock async)
    (ok : Bool) : Inv maxSize (s.connectDone i sock async ok) := by
  unfold State.connectDone
  cases ok with
  | false => exact h.setCall rfl nofun nofun
  | true =>
    have hpending : (s.calls i).pending = some sock := by simp [hcall, Phase.pending]
    obtain ⟨hmade, hnew⟩ := h.pendingNew i sock hpending
    have hcases : ∀ j, (Function.update s.calls i (.connected sock async) j).pending =
        (s.calls j).pending := by
      intro j
      by_cases hj : j = i
      · subst hj; simp [Phase.pending, hcall]
      · simp [hj]
    have hon : ∀ k ∈ s.handed, Function.update s.isConnected sock true k = s.isConnected k := by
      intro k hk
      have hne : k ≠ sock := by
        rintro rfl
        exact hnew hk
      simp [hne]
    refine ⟨h.nodup, h.bound, h.tracked, h.made, ?_, ?_, ?_, ?_, ?_⟩
    · intro j k hk
      exact h.pendingNew j k ((hcases j).symm.trans hk)
    · intro j j' k hk hk'
      exact h.pendingOnce j j' k ((hcases j).symm.trans hk) ((hcases j').symm.trans hk')
    · intro j k hk
      by_cases hj : j = i
      · subst hj; simp [State.setCall] at hk
      · exact h.removing j k (by simpa [State.setCall, hj] using hk)
    · intro j k hk
      by_cases hj : j = i
      · subst hj; simp [State.setCall] at hk
      · obtain ⟨hmem, hoff⟩ := h.closed j k (by simpa [State.setCall, hj] using hk)
        exact ⟨hmem, (hon k hmem).trans hoff⟩
    · intro k hk hconn
      exact h.connected k hk ((hon k hk).symm.trans hconn)

/-- The call hands its socket out and is over. Its socket is in the table
or among the refused ones. -/
theorem Inv.handOut (h : Inv maxSize s) (hcall : s.calls i = .connected sock async)
    {socks untracked : List Nat} (hnodup : socks.Nodup) (hbound : socks.length ≤ maxSize + 1)
    (hsocks : ∀ k ∈ s.socks, k ∈ socks) (hsocks' : ∀ k ∈ socks, k ∈ s.socks ∨ k = sock)
    (huntracked : ∀ k ∈ s.untracked, k ∈ untracked)
    (hsock : sock ∈ socks ∨ sock ∈ untracked) :
    Inv maxSize { s.setCall i .idle with
      socks := socks, handed := s.handed ++ [sock], untracked := untracked } := by
  have hpending : (s.calls i).pending = some sock := by simp [hcall, Phase.pending]
  have hmade := (h.pendingNew i sock hpending).1
  have hother : ∀ j k, (Function.update s.calls i .idle j).pending = some k →
      j ≠ i ∧ (s.calls j).pending = some k := by
    intro j k hk
    by_cases hj : j = i
    · subst hj; simp [Phase.pending] at hk
    · exact ⟨hj, by simpa [hj] using hk⟩
  refine ⟨hnodup, hbound, ?_, ?_, ?_, ?_, ?_, ?_, ?_⟩
  · intro k hk
    rcases hsocks' k hk with hold | rfl
    · exact List.mem_append_left _ (h.tracked k hold)
    · simp
  · intro k hk
    rcases List.mem_append.mp hk with hold | hnew
    · exact h.made k hold
    · rw [List.mem_singleton.mp hnew]
      exact hmade
  · intro j k hk
    obtain ⟨hj, hold⟩ := hother j k hk
    refine ⟨(h.pendingNew j k hold).1, fun hmem => ?_⟩
    rcases List.mem_append.mp hmem with hmem | hmem
    · exact (h.pendingNew j k hold).2 hmem
    · obtain rfl := List.mem_singleton.mp hmem
      exact hj (h.pendingOnce j i k hold hpending)
  · intro j j' k hk hk'
    exact h.pendingOnce j j' k (hother j k hk).2 (hother j' k hk').2
  · intro j k hk
    by_cases hj : j = i
    · subst hj; simp [State.setCall] at hk
    · exact List.mem_append_left _ (h.removing j k (by simpa [State.setCall, hj] using hk))
  · intro j k hk
    by_cases hj : j = i
    · subst hj; simp [State.setCall] at hk
    · obtain ⟨hmem, hoff⟩ := h.closed j k (by simpa [State.setCall, hj] using hk)
      exact ⟨List.mem_append_left _ hmem, hoff⟩
  · intro k hk hconn
    rcases List.mem_append.mp hk with hold | hnew
    · rcases h.connected k hold hconn with hmem | hmem
      · exact .inl (hsocks k hmem)
      · exact .inr (huntracked k hmem)
    · rw [List.mem_singleton.mp hnew]
      exact hsock

theorem Inv.finish (h : Inv maxSize s) (hcall : s.calls i = .connected sock async) :
    Inv maxSize (s.finish maxSize i sock async) := by
  have hpending : (s.calls i).pending = some sock := by simp [hcall, Phase.pending]
  have hnew : sock ∉ s.socks := fun hmem => (h.pendingNew i sock hpending).2 (h.tracked _ hmem)
  have hexist : s.isExist sock = false := by simpa [State.isExist] using hnew
  by_cases hfull : s.size > maxSize
  · simp only [State.finish, State.add, hfull, if_true]
    cases async with
    | true =>
      exact h.handOut hcall h.nodup h.bound (fun _ hk => hk) (fun _ hk => .inl hk)
        (fun _ hk => List.mem_append_left _ hk) (.inr (by simp))
    | false =>
      exact (@Inv.setCall maxSize s i h .idle rfl (by simp) (by simp)).closeSock sock
  · simp only [State.finish, State.add, hfull, hexist, if_false, Bool.false_eq_true, if_true]
    have hsize : s.socks.length ≤ maxSize := Nat.le_of_not_lt hfull
    have hnodup : (s.socks ++ [sock]).Nodup := by
      refine h.nodup.append (List.nodup_singleton _) fun k hk hmem => hnew ?_
      rwa [← List.mem_singleton.mp hmem]
    have hmem : ∀ k, k ∈ s.socks ++ [sock] ↔ k ∈ s.socks ∨ k = sock := by simp
    have hbound : (s.socks ++ [sock]).length ≤ maxSize + 1 := by simpa using hsize
    exact h.handOut hcall hnodup hbound (fun k hk => (hmem k).mpr (.inl hk))
      (fun k hk => (hmem k).mp hk) (fun _ hk => hk) (.inl ((hmem sock).mpr (.inr rfl)))

/-- What `remove` takes out of the table is closed. -/
theorem Inv.del (h : Inv maxSize s) (hoff : s.isConnected sock = false) :
    Inv maxSize (s.del sock) := by
  refine ⟨h.nodup.erase _, ?_, fun k hk => h.tracked k (List.mem_of_mem_erase hk), h.made,
    h.pendingNew, h.pendingOnce, h.removing, h.closed, fun k hk hconn => ?_⟩
  · exact Nat.le_trans List.length_erase_le h.bound
  · have hne : k ≠ sock := by
      rintro rfl
      simp [State.del, hoff] at hconn
    rcases h.connected k hk hconn with hmem | hmem
    · exact .inl ((List.mem_erase_of_ne hne).mpr hmem)
    · exact .inr hmem

theorem Inv.close (h : Inv maxSize s) : Inv maxSize s.close := by
  refine ⟨List.nodup_nil, Nat.zero_le _, nofun, h.made, h.pendingNew, h.pendingOnce, h.removing,
    fun j k hk => ?_, fun k hk hconn => ?_⟩
  · obtain ⟨hmem, hoff⟩ := h.closed j k hk
    exact ⟨hmem, by simp [State.close, hoff]⟩
  · simp only [State.close, State.isExist, Bool.and_eq_true, Bool.not_eq_true',
      List.contains_eq_mem, decide_eq_false_iff_not] at hconn
    exact .inr ((h.connected k hk hconn.1).resolve_left hconn.2)

theorem Inv.step (h : Inv maxSize s) (hs : Step maxSize s a s') : Inv maxSize s' := by
  cases hs with
  | dial hidle => exact h.dial hidle _
  | connectDone hcall => exact h.connectDone hcall _
  | finish hcall => exact h.finish hcall
  | @remove i sock hidle =>
    split
    next hexist =>
      refine h.setCall rfl (fun k hk => ?_) nofun
      cases hk
      exact h.tracked sock (by simpa [State.isExist] using hexist)
    next => exact h
  | @removeClose i sock hcall =>
    refine (h.closeSock sock).setCall rfl nofun fun k hk => ?_
    cases hk
    exact ⟨h.removing i sock hcall, by simp [State.closeSock]⟩
  | removeDel hcall => exact (h.del (h.closed _ _ hcall).2).setCall rfl nofun nofun
  | close => exact h.close
  | lost => exact h.closeSock _

end Invariant

/-! ## The bound is reached -/

/-- A state between calls. -/
def Quiet (s : State) : Prop := s.calls 0 = .idle ∧ ∀ k ∈ s.socks, k < s.made

/-- One more `dial`, alone, that connects. -/
theorem dial_one {maxSize : Nat} {tr : List Event} {s : State} (h : (lts maxSize).Run tr s)
    (hquiet : Quiet s) (hlen : s.socks.length ≤ maxSize) :
    ∃ tr s', (lts maxSize).Run tr s' ∧ Quiet s' ∧ s'.socks.length = s.socks.length + 1 := by
  obtain ⟨hidle, hmade⟩ := hquiet
  have hsize : ¬ maxSize < s.socks.length := Nat.not_lt.mpr hlen
  have hfresh : s.made ∉ s.socks := fun hmem => Nat.lt_irrefl _ (hmade _ hmem)
  have hdial := h.snoc (@Step.dial maxSize _ 0 false hidle)
  have hcall : (s.dial maxSize 0 false).calls 0 = .connecting s.made false := by
    simp [State.dial, State.size, hsize, State.setCall]
  have hconn := hdial.snoc (@Step.connectDone maxSize _ 0 _ _ true hcall)
  have hcall' : ((s.dial maxSize 0 false).connectDone 0 s.made false true).calls 0 =
      .connected s.made false := by
    simp [State.connectDone, State.setCall]
  have hrun := hconn.snoc (Step.finish hcall')
  generalize hs' : State.finish _ _ _ _ _ = s' at hrun
  have hsocks : s'.socks = s.socks ++ [s.made] ∧ s'.made = s.made + 1 ∧ s'.calls 0 = .idle := by
    subst hs'
    simp [State.finish, State.add, State.connectDone, State.dial, State.setCall, State.size,
      State.isExist, hsize, hfresh]
  obtain ⟨hsocks, hnext, hcalls⟩ := hsocks
  refine ⟨_, s', hrun, ⟨hcalls, fun k hk => ?_⟩, by simp [hsocks]⟩
  rw [hsocks, List.mem_append, List.mem_singleton] at hk
  rcases hk with hk | rfl
  · have hlt := hmade k hk
    omega
  · omega

/-- `dial` after `dial` fills the table to one more than it is told. -/
theorem full_reached (maxSize n : Nat) (hn : n ≤ maxSize + 1) :
    ∃ tr s, (lts maxSize).Run tr s ∧ Quiet s ∧ s.socks.length = n := by
  induction n with
  | zero => exact ⟨[], .new, .start rfl, ⟨rfl, by simp [State.new]⟩, rfl⟩
  | succ n ih =>
    obtain ⟨tr, s, hrun, hquiet, hlen⟩ := ih (by omega)
    obtain ⟨tr', s', hrun', hquiet', hlen'⟩ := dial_one hrun hquiet (by omega)
    exact ⟨tr', s', hrun', hquiet', by rw [hlen', hlen]⟩

/-- **The table tracks the connections.** Whatever calls run side by side
and however their connects end: the table holds no socket twice and at
most `_max_size + 1` of them, which it reaches; it holds only sockets that
were handed out; and a socket that was handed out and is still connected
is in it, unless it came from an `async_dial` whose `_add` was refused. So
after a `close` only those are still connected. -/
theorem dialer_table (maxSize : Nat) :
    (∀ tr s, (lts maxSize).Run tr s →
      s.socks.Nodup ∧ s.socks.length ≤ maxSize + 1 ∧ (∀ k ∈ s.socks, k ∈ s.handed) ∧
        ∀ k ∈ s.handed, s.isConnected k = true → k ∈ s.socks ∨ k ∈ s.untracked) ∧
      ∃ tr s, (lts maxSize).Run tr s ∧ s.socks.length = maxSize + 1 := by
  constructor
  · intro tr s hrun
    have hinv : Inv maxSize s := by
      refine Lts.Run.invariant (I := fun _ s => Inv maxSize s) ?_ ?_ hrun
      · rintro s rfl
        exact inv_new
      · intro tr s a s' _ h hs
        exact h.step hs
    exact ⟨hinv.nodup, hinv.bound, hinv.tracked, hinv.connected⟩
  · obtain ⟨tr, s, hrun, -, hlen⟩ := full_reached maxSize (maxSize + 1) (Nat.le_refl _)
    exact ⟨tr, s, hrun, hlen⟩

end HighJump.Net.TcpDialer
