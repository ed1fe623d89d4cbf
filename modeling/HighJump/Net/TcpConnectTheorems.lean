/-
HighJump.Net.TcpConnectTheorems — who wins the race for a blocking
`connect`, and what is left behind.

A turn of the loop is undecided, or the connect was first, or the timer.
Only the handler that was first writes the flag, so at the end of a turn
the flag says whether the connect was first and came off. `Inv` carries
that from turn to turn.
-/
import HighJump.Net.TcpConnect

namespace HighJump.Net.TcpConnect

open HighJump.Lib

/-! ## One turn -/

/-- No handler has run. -/
structure Undecided (s : State) (att : Attempt) : Prop where
  connect : att.connect = .waiting
  timer : att.timer = .waiting
  finished : att.finished = false
  success : att.success = false
  flag : s.connected = false
  opened : s.closed (s.made - 1) = false

/-- The handler of the connect was first. -/
structure ByConnect (s : State) (att : Attempt) : Prop where
  finished : att.finished = true
  timer : att.timer ≠ .inside true
  result : att.result ≠ none
  opened : s.closed (s.made - 1) = false
  progress : (att.connect = .inside true ∧ att.success = false ∧ s.connected = false) ∨
    (att.connect = .done ∧ att.success = decide (att.result = some true) ∧
      s.connected = att.success)

/-- The handler of the timer was, which takes that the time was up. -/
structure ByTimer (s : State) (att : Attempt) : Prop where
  finished : att.finished = true
  connect : att.connect ≠ .inside true
  success : att.success = false
  flag : s.connected = false
  expired : att.expired = true

/-- A turn of the loop. A timer that is ready before a handler has run was
not cancelled. -/
structure Turn (s : State) (att : Attempt) : Prop where
  who : Undecided s att ∨ ByConnect s att ∨ ByTimer s att
  ready : att.ready = true → att.finished = false → att.expired = true

section OneTurn

variable {s : State} {att : Attempt} {i : Nat}

/-- The phase is not part of it. -/
theorem Turn.congr (h : Turn s att) {s' : State} (hflag : s'.connected = s.connected)
    (hclosed : s'.closed = s.closed) (hmade : s'.made = s.made) : Turn s' att := by
  refine ⟨?_, h.ready⟩
  rcases h.who with hu | hc | ht
  · exact .inl ⟨hu.connect, hu.timer, hu.finished, hu.success, by rw [hflag, hu.flag],
      by rw [hclosed, hmade, hu.opened]⟩
  · exact .inr (.inl ⟨hc.finished, hc.timer, hc.result, by rw [hclosed, hmade, hc.opened],
      by rw [hflag]; exact hc.progress⟩)
  · exact .inr (.inr ⟨ht.finished, ht.connect, ht.success, by rw [hflag, ht.flag], ht.expired⟩)

theorem Turn.decide (h : Turn s att) (hnone : att.result = none) (ok : Bool) :
    Turn s { att with result := some ok } := by
  refine ⟨?_, h.ready⟩
  rcases h.who with hu | hc | ht
  · exact .inl ⟨hu.connect, hu.timer, hu.finished, hu.success, hu.flag, hu.opened⟩
  · exact absurd hnone hc.result
  · exact .inr (.inr ⟨ht.finished, ht.connect, ht.success, ht.flag, ht.expired⟩)

theorem Turn.expire (h : Turn s att) : Turn s { att with expired := true, ready := true } := by
  refine ⟨?_, fun _ _ => rfl⟩
  rcases h.who with hu | hc | ht
  · exact .inl ⟨hu.connect, hu.timer, hu.finished, hu.success, hu.flag, hu.opened⟩
  · exact .inr (.inl ⟨hc.finished, hc.timer, hc.result, hc.opened, hc.progress⟩)
  · exact .inr (.inr ⟨ht.finished, ht.connect, ht.success, ht.flag, rfl⟩)

theorem Turn.enterConnect (h : Turn s att) (hwait : att.connect = .waiting)
    (hresult : att.result ≠ none) : Turn s att.enterConnect := by
  refine ⟨?_, fun _ hf => by simp [Attempt.enterConnect] at hf⟩
  rcases h.who with hu | hc | ht
  · refine .inr (.inl ⟨rfl, ?_, hresult, hu.opened, .inl ⟨?_, hu.success, hu.flag⟩⟩)
    · simp [Attempt.enterConnect, hu.timer]
    · simp [Attempt.enterConnect, hu.finished]
  · rcases hc.progress with ⟨hin, -⟩ | ⟨hdone, -⟩
    · simp [hwait] at hin
    · simp [hwait] at hdone
  · refine .inr (.inr ⟨rfl, ?_, ht.success, ht.flag, ht.expired⟩)
    simp [Attempt.enterConnect, ht.finished]

theorem Turn.enterTimer (h : Turn s att) (hready : att.ready = true) : Turn s att.enterTimer := by
  refine ⟨?_, fun _ hf => by simp [Attempt.enterTimer] at hf⟩
  rcases h.who with hu | hc | ht
  · refine .inr (.inr ⟨rfl, ?_, hu.success, hu.flag, h.ready hready hu.finished⟩)
    simp [Attempt.enterTimer, hu.connect]
  · refine .inr (.inl ⟨rfl, ?_, hc.result, hc.opened, hc.progress⟩)
    simp [Attempt.enterTimer, hc.finished]
  · exact .inr (.inr ⟨rfl, ht.connect, ht.success, ht.flag, ht.expired⟩)

end OneTurn

/-! ## All turns -/

/-- A turn that came to nothing: the connect failed or the time was up. -/
def Failed (e : Option Bool × Bool) : Prop := e.1 = some false ∨ e.2 = true

/-- What the turns so far have left. -/
structure Inv (tryTimes : Int) (connected : Bool) (s : State) : Prop where
  dropped : ∀ k, k + 1 < s.made → s.closed k = true
  unmade : ∀ k, s.made ≤ k → s.closed k = false
  top : ∀ i, s.phase = .top i → s.log.length = i ∧ s.made = i + 1 ∧ i ≤ tryTimes.toNat ∧
    (∀ e ∈ s.log, Failed e) ∧ s.connected = (decide (i = 0) && connected)
  running : ∀ i att, s.phase = .running i att → s.log.length = i ∧ s.made = i + 2 ∧
    i < tryTimes.toNat ∧ (∀ e ∈ s.log, Failed e) ∧ Turn s att
  succeeded : s.phase = .returned true → s.made = s.log.length + 1 ∧ s.log.length ≤ tryTimes.toNat ∧
    s.connected = true ∧ s.closed (s.made - 1) = false ∧
      ∃ failed expired, s.log = failed ++ [(some true, expired)] ∧ ∀ e ∈ failed, Failed e
  gaveUp : s.phase = .returned false → s.made = s.log.length + 1 ∧ s.log.length = tryTimes.toNat ∧
    (∀ e ∈ s.log, Failed e) ∧ s.connected = (decide (tryTimes ≤ 0) && connected)

theorem inv_start (tryTimes : Int) (connected : Bool) :
    Inv tryTimes connected (.start connected) := by
  constructor <;> simp [State.start]

section AllTurns

variable {tryTimes : Int} {connected : Bool} {s s' : State} {a : Event} {i : Nat} {att : Attempt}

/-- A step inside a turn that touches only the turn. -/
theorem Inv.setTurn (h : Inv tryTimes connected s) (hphase : s.phase = .running i att)
    {att' : Attempt} (hturn : Turn s att') :
    Inv tryTimes connected { s with phase := .running i att' } := by
  obtain ⟨hlog, hmade, hi, hfailed, -⟩ := h.running i att hphase
  refine ⟨h.dropped, h.unmade, by simp, ?_, by simp, by simp⟩
  intro j att'' heq
  cases heq
  exact ⟨hlog, hmade, hi, hfailed, hturn.congr rfl rfl rfl⟩

theorem Inv.top_step (h : Inv tryTimes connected s) (hphase : s.phase = .top i) :
    Inv tryTimes connected (s.top tryTimes i) := by
  obtain ⟨hlog, hmade, hi, hfailed, hflag⟩ := h.top i hphase
  unfold State.top
  split
  next hlt =>
    refine ⟨fun k hk => ?_, fun k hk => ?_, by simp, ?_, by simp, by simp⟩
    · simp only [State.closeSock] at hk ⊢
      by_cases hkey : k = s.made - 1
      · simp [hkey]
      · simpa [hkey] using h.dropped k (by omega)
    · simp only [State.closeSock] at hk ⊢
      have hne : k ≠ s.made - 1 := by omega
      simpa [hne] using h.unmade k (by omega)
    · intro j att' heq
      cases heq
      have hnew : Turn { { s with connected := false }.closeSock with
          made := s.made + 1, phase := .running i .new } .new := by
        refine ⟨.inl ⟨rfl, rfl, rfl, rfl, rfl, ?_⟩, by simp [Attempt.new]⟩
        have hne : s.made ≠ s.made - 1 := by omega
        simpa [State.closeSock, hne] using h.unmade s.made (Nat.le_refl _)
      exact ⟨hlog, by simp [State.closeSock, hmade], by omega, hfailed, hnew⟩
  next hge =>
    have heq : i = tryTimes.toNat := by omega
    refine ⟨h.dropped, h.unmade, by simp, by simp, by simp, fun _ => ?_⟩
    refine ⟨by rw [hmade, hlog], by rw [hlog, heq], hfailed, ?_⟩
    have hzero : decide (i = 0) = decide (tryTimes ≤ 0) := by
      refine decide_eq_decide.mpr ?_
      omega
    simpa [hzero] using hflag

theorem Inv.leaveConnect (h : Inv tryTimes connected s) (hphase : s.phase = .running i att)
    {first : Bool} (hin : att.connect = .inside first) :
    Inv tryTimes connected (s.leaveConnect i att first) := by
  obtain ⟨hlog, hmade, hi, hfailed, hturn⟩ := h.running i att hphase
  unfold State.leaveConnect
  cases first with
  | false =>
    -- The timer was first, and this handler changes nothing.
    refine h.setTurn hphase ⟨?_, hturn.ready⟩
    rcases hturn.who with hu | hc | ht
    · simp [hu.connect] at hin
    · rcases hc.progress with ⟨hprog, -⟩ | ⟨hdone, -⟩
      · simp [hprog] at hin
      · simp [hdone] at hin
    · exact .inr (.inr ⟨ht.finished, by simp, ht.success, ht.flag, ht.expired⟩)
  | true =>
    have hc : ByConnect s att := by
      rcases hturn.who with hu | hc | ht
      · simp [hu.connect] at hin
      · exact hc
      · exact absurd hin ht.connect
    have hsuccess : att.success = false := by
      rcases hc.progress with ⟨-, hs, -⟩ | ⟨hdone, -⟩
      · exact hs
      · simp [hdone] at hin
    simp only [if_true]
    refine ⟨h.dropped, h.unmade, by simp, ?_, by simp, by simp⟩
    intro j att' heq
    cases heq
    refine ⟨hlog, hmade, hi, hfailed, ⟨.inr (.inl ⟨hc.finished, hc.timer, hc.result, hc.opened,
      .inr ⟨rfl, ?_, ?_⟩⟩), fun _ hf => ?_⟩⟩
    · simp [hsuccess]
    · simp [hsuccess]
    · simp [hc.finished] at hf

theorem Inv.leaveTimer (h : Inv tryTimes connected s) (hphase : s.phase = .running i att)
    {first : Bool} (hin : att.timer = .inside first) :
    Inv tryTimes connected (s.leaveTimer i att first) := by
  obtain ⟨hlog, hmade, hi, hfailed, hturn⟩ := h.running i att hphase
  unfold State.leaveTimer
  cases first with
  | false =>
    refine h.setTurn hphase ⟨?_, hturn.ready⟩
    rcases hturn.who with hu | hc | ht
    · simp [hu.timer] at hin
    · exact .inr (.inl ⟨hc.finished, by simp, hc.result, hc.opened, hc.progress⟩)
    · exact .inr (.inr ⟨ht.finished, ht.connect, ht.success, ht.flag, ht.expired⟩)
  | true =>
    have ht : ByTimer s att := by
      rcases hturn.who with hu | hc | ht
      · simp [hu.timer] at hin
      · exact absurd hin hc.timer
      · exact ht
    simp only [if_true]
    refine ⟨fun k hk => ?_, fun k hk => ?_, by simp, ?_, by simp, by simp⟩
    · simp only [State.closeSock] at hk ⊢
      by_cases hkey : k = s.made - 1
      · simp [hkey]
      · simpa [hkey] using h.dropped k hk
    · simp only [State.closeSock] at hk ⊢
      have hne : k ≠ s.made - 1 := by omega
      simpa [hne] using h.unmade k hk
    · intro j att' heq
      cases heq
      exact ⟨hlog, hmade, hi, hfailed, ⟨.inr (.inr ⟨ht.finished, ht.connect, ht.success, rfl,
        ht.expired⟩), fun _ hf => by simp [ht.finished] at hf⟩⟩

theorem Inv.runReturns (h : Inv tryTimes connected s) (hphase : s.phase = .running i att)
    (hconnect : att.connect = .done) : Inv tryTimes connected (s.runReturns i att) := by
  obtain ⟨hlog, hmade, hi, hfailed, hturn⟩ := h.running i att hphase
  have hlog' : (s.log ++ [(att.result, att.expired)]).length = i + 1 := by simp [hlog]
  -- The flag is what the turn came to.
  have hend : s.connected = att.success ∧
      (att.success = true → att.result = some true ∧ s.closed (s.made - 1) = false) ∧
      (att.success = false → Failed (att.result, att.expired)) := by
    rcases hturn.who with hu | hc | ht
    · simp [hu.connect] at hconnect
    · rcases hc.progress with ⟨hin, -⟩ | ⟨-, hsuccess, hflag⟩
      · simp [hin] at hconnect
      · refine ⟨hflag, fun hs => ⟨?_, hc.opened⟩, fun hs => .inl ?_⟩
        · simpa [hsuccess] using hs
        · cases hres : att.result with
          | none => exact absurd hres hc.result
          | some ok =>
            cases ok with
            | false => rfl
            | true => simp [hsuccess, hres] at hs
    · refine ⟨by rw [ht.flag, ht.success], fun hs => ?_, fun _ => .inr ht.expired⟩
      simp [ht.success] at hs
  obtain ⟨hflag, hgood, hbad⟩ := hend
  unfold State.runReturns
  cases hs : att.success with
  | true =>
    obtain ⟨hresult, hopened⟩ := hgood hs
    simp only [if_true]
    refine ⟨h.dropped, h.unmade, by simp, by simp, fun _ => ?_, by simp⟩
    refine ⟨by simp [hmade, hlog], by rw [hlog']; exact hi, hflag.trans hs, hopened,
      s.log, att.expired, by rw [hresult], hfailed⟩
  | false =>
    simp only [Bool.false_eq_true, if_false]
    refine ⟨h.dropped, h.unmade, ?_, by simp, by simp, by simp⟩
    intro j heq
    cases heq
    refine ⟨hlog', hmade, hi, fun e he => ?_, by simp [hflag, hs]⟩
    rcases List.mem_append.mp he with he | he
    · exact hfailed e he
    · exact List.mem_singleton.mp he ▸ hbad hs

theorem Inv.step (h : Inv tryTimes connected s) (hs : Step tryTimes s a s') :
    Inv tryTimes connected s' := by
  cases hs with
  | top hphase => exact h.top_step hphase
  | decide hphase hnone =>
    exact h.setTurn hphase ((h.running _ _ hphase).2.2.2.2.decide hnone _)
  | expire hphase => exact h.setTurn hphase (h.running _ _ hphase).2.2.2.2.expire
  | enterConnect hphase hwait hresult =>
    exact h.setTurn hphase ((h.running _ _ hphase).2.2.2.2.enterConnect hwait hresult)
  | leaveConnect hphase hin => exact h.leaveConnect hphase hin
  | enterTimer hphase _ hready =>
    exact h.setTurn hphase ((h.running _ _ hphase).2.2.2.2.enterTimer hready)
  | leaveTimer hphase hin => exact h.leaveTimer hphase hin
  | runReturns hphase hconnect _ => exact h.runReturns hphase hconnect

end AllTurns

/-- **The race.** However the handlers of connects and timers run, when
`connect` returns every socket but the last is closed. If it returned
`true`, the flag is set, the last socket is open and its connect came off,
and every turn before failed or was out of time; the turns are no more
than `try_times`. If it returned `false` there were `try_times` turns, all
of which failed or were out of time, and the flag is not set, unless
`try_times` was not positive: then it is what it was. -/
theorem connect_race {tryTimes : Int} {connected ok : Bool} {tr : List Event} {s : State}
    (h : (lts tryTimes connected).Run tr s) (hret : s.phase = .returned ok) :
    (∀ k, k + 1 < s.made → s.closed k = true) ∧ s.made = s.log.length + 1 ∧
      (ok = true → s.connected = true ∧ s.closed (s.made - 1) = false ∧
        s.log.length ≤ tryTimes.toNat ∧
          ∃ failed expired, s.log = failed ++ [(some true, expired)] ∧ ∀ e ∈ failed, Failed e) ∧
      (ok = false → s.log.length = tryTimes.toNat ∧ (∀ e ∈ s.log, Failed e) ∧
        s.connected = (decide (tryTimes ≤ 0) && connected)) := by
  have hinv : Inv tryTimes connected s := by
    refine Lts.Run.invariant (I := fun _ s => Inv tryTimes connected s) ?_ ?_ h
    · rintro s rfl
      exact inv_start tryTimes connected
    · intro tr s a s' _ h hs
      exact h.step hs
  cases ok with
  | true =>
    obtain ⟨hmade, hlen, hflag, hopened, hlog⟩ := hinv.succeeded hret
    exact ⟨hinv.dropped, hmade, fun _ => ⟨hflag, hopened, hlen, hlog⟩, by simp⟩
  | false =>
    obtain ⟨hmade, hlen, hfailed, hflag⟩ := hinv.gaveUp hret
    exact ⟨hinv.dropped, hmade, by simp, fun _ => ⟨hlen, hfailed, hflag⟩⟩

/-- The first connect comes off just when its time is up, and the timer's
handler is first; the second one is in time. -/
def lateTrace : List Event :=
  [.top, .decide true, .expire, .enterTimer, .enterConnect, .leaveConnect, .leaveTimer, .runReturns,
    .top, .decide true, .enterConnect, .leaveConnect, .enterTimer, .leaveTimer, .runReturns]

theorem late_run : ∃ s, (lts 3 false).Run lateTrace s ∧ s.phase = .returned true ∧
    s.log = [(some true, true), (some true, false)] := by
  have h0 : (lts 3 false).Run [] (.start false) := .start rfl
  have h1 := h0.snoc (@Step.top 3 _ 0 rfl)
  have h2 := h1.snoc (@Step.decide 3 _ _ _ true rfl rfl)
  have h3 := h2.snoc (.expire rfl rfl)
  have h4 := h3.snoc (.enterTimer rfl rfl rfl)
  have h5 := h4.snoc (.enterConnect rfl rfl (by decide))
  have h6 := h5.snoc (.leaveConnect rfl rfl)
  have h7 := h6.snoc (.leaveTimer rfl rfl)
  have h8 := h7.snoc (.runReturns rfl rfl rfl)
  have h9 := h8.snoc (@Step.top 3 _ 1 rfl)
  have h10 := h9.snoc (@Step.decide 3 _ _ _ true rfl rfl)
  have h11 := h10.snoc (.enterConnect rfl rfl (by decide))
  have h12 := h11.snoc (.leaveConnect rfl rfl)
  have h13 := h12.snoc (.enterTimer rfl rfl rfl)
  have h14 := h13.snoc (.leaveTimer rfl rfl)
  have h15 := h14.snoc (.runReturns rfl rfl rfl)
  exact ⟨_, h15, rfl, rfl⟩

/-- The theorem on that run. -/
theorem connect_race_late : ∃ s, (lts 3 false).Run lateTrace s ∧ s.made = 3 ∧
    s.closed 1 = true ∧ s.closed 2 = false ∧ s.connected = true := by
  obtain ⟨s, hrun, hret, hlog⟩ := late_run
  obtain ⟨hdropped, hmade, hgood, -⟩ := connect_race hrun hret
  obtain ⟨hflag, hopened, -⟩ := hgood rfl
  have hthree : s.made = 3 := by rw [hmade, hlog]; rfl
  exact ⟨s, hrun, hthree, hdropped 1 (by omega), by rw [hthree] at hopened; exact hopened, hflag⟩

end HighJump.Net.TcpConnect
