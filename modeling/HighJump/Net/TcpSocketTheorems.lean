/-
HighJump.Net.TcpSocketTheorems — what the connected flag tells.

Calls and outcomes never make it wrong, unless an `async_connect` finds
the flag set and no socket. A completion does in two ways: it is a success
while the socket that is there has not connected, or it is the last one and
does not say what became of the latest attempt. The handlers ask neither
whose completion they handle nor whether the socket has been disconnected.
`socket_truthful_iff` is the exact condition, over whole runs.
-/
import HighJump.Net.TcpSocket

namespace HighJump.Net.TcpSocket

open HighJump.Lib

/-! ## What should hold -/

/-- What the flag has to tell in the end: the outcome of the latest
attempt, and nothing connected where there is none. -/
def State.verdict (s : State) : Option Bool :=
  match s.latest with
  | none => some false
  | some k => (s.socks k).result

/-- `is_connected()` is about the socket that is there, and the flag about
the latest attempt once every completion was delivered. -/
structure State.Truthful (s : State) : Prop where
  current : s.isConnected = true →
    ∃ k, s.sock = some k ∧ (s.socks k).result = some true ∧ (s.socks k).closed = false
  settled : s.outstanding = [] → s.verdict = some s.connected

/-- The step leaves a truthful state. -/
def State.Good (s : State) (e : Event) : Prop := (s.apply e).Truthful

/-- A success is delivered only where the attempt on the socket that is
there has succeeded, and the last completion says what became of the latest
attempt. -/
def State.Meets (s : State) : Event → Prop
  | .asyncConnect => s.sock = none → s.connected = false
  | .deliver k =>
      ((s.socks k).result = some true → ∀ j, s.sock = some j → (s.socks j).result = some true) ∧
        (s.outstanding.erase k = [] → (s.socks k).result = s.verdict)
  | .disconnect => True
  | .close => True
  | .decide _ _ => True

/-! ## Invariant -/

/-- What holds in every run. -/
structure State.Inv (s : State) : Prop where
  present : ∀ k, s.sock = some k → (s.socks k).closed = false
  /-- The latest attempt is on the current socket. -/
  latest_sock : ∀ k, s.latest = some k → s.sock = some k

variable {s : State}

theorem isConnected_eq (s : State) : s.isConnected = true ↔ s.sock ≠ none ∧ s.connected = true := by
  rw [State.isConnected, Bool.and_eq_true, Option.isSome_iff_ne_none]

theorem inv_new : State.new.Inv where
  present _ _ := rfl
  latest_sock := nofun

/-- A call that is not refused. -/
theorem asyncConnect_eq (h : ¬ s.isConnected = true) : s.asyncConnect =
    { s with
      sock := some s.next
      socks := Function.update s.drop s.next .new
      next := s.next + 1
      outstanding := s.outstanding ++ [s.next]
      latest := some s.next } := if_neg h

/-- The new socket. -/
theorem asyncConnect_new (h : ¬ s.isConnected = true) : s.asyncConnect.socks s.next = .new := by
  rw [asyncConnect_eq h]
  exact Function.update_self ..

theorem decide_self (s : State) (k : Nat) (ok : Bool) :
    (s.decide k ok).socks k = { s.socks k with result := some ok } := Function.update_self ..

theorem decide_other {j k : Nat} (h : j ≠ k) (ok : Bool) :
    (s.decide k ok).socks j = s.socks j := Function.update_of_ne h ..

theorem inv_asyncConnect (h : s.Inv) : s.asyncConnect.Inv := by
  by_cases hc : s.isConnected = true
  · rw [State.asyncConnect, if_pos hc]
    exact h
  · have hnew := asyncConnect_new hc
    rw [asyncConnect_eq hc] at hnew ⊢
    refine ⟨?_, fun k hk => hk⟩
    rintro k ⟨⟩
    exact congrArg Sock.closed hnew

theorem inv_disconnect (h : s.Inv) : s.disconnect.Inv := by
  rw [State.disconnect]
  split
  · exact ⟨nofun, nofun⟩
  · exact ⟨h.present, nofun⟩

theorem inv_decide (h : s.Inv) (k : Nat) (ok : Bool) : (s.decide k ok).Inv where
  present j hj := by
    have hopen := h.present j hj
    by_cases hjk : j = k
    · subst hjk
      rw [decide_self]
      exact hopen
    · rw [decide_other hjk]
      exact hopen
  latest_sock := h.latest_sock

theorem deliver_eq {k : Nat} {ok : Bool} (hok : (s.socks k).result = some ok) :
    s.deliver k = { s with connected := ok, outstanding := s.outstanding.erase k } := by
  rw [State.deliver, hok]

theorem inv_apply (h : s.Inv) {e : Event} (he : s.Enabled e) : (s.apply e).Inv := by
  cases e with
  | asyncConnect => exact inv_asyncConnect h
  | disconnect | close => exact inv_disconnect h
  | decide k ok => exact inv_decide h k ok
  | deliver k =>
    obtain ⟨ok, hok⟩ := Option.ne_none_iff_exists'.mp he.2
    rw [State.apply, deliver_eq hok]
    exact ⟨h.present, h.latest_sock⟩

/-! ## Single steps -/

/-- A new socket is not connected, so the flag must not be set. -/
theorem good_asyncConnect (h : s.Truthful) : s.Good .asyncConnect ↔ s.Meets .asyncConnect := by
  rw [State.Good, State.apply]
  by_cases hc : s.isConnected = true
  · rw [State.asyncConnect, if_pos hc]
    exact iff_of_true h fun hnone => absurd hnone ((isConnected_eq s).mp hc).1
  · have hnew := asyncConnect_new hc
    rw [asyncConnect_eq hc] at hnew ⊢
    constructor
    · intro hg _
      rw [← Bool.not_eq_true]
      intro hconn
      obtain ⟨k, hk, hres, -⟩ := hg.current ((isConnected_eq _).mpr ⟨Option.some_ne_none _, hconn⟩)
      obtain rfl := Option.some.inj hk
      rw [hnew] at hres
      cases hres
    · intro hm
      refine ⟨fun hconn => ?_, fun hempty => ?_⟩
      · have hflag : s.connected = true := ((isConnected_eq _).mp hconn).2
        cases hsock : s.sock with
        | none =>
          rw [hm hsock] at hflag
          cases hflag
        | some k => exact absurd ((isConnected_eq s).mpr ⟨by rw [hsock]; nofun, hflag⟩) hc
      · exact absurd hempty (List.append_ne_nil_of_right_ne_nil _ (List.cons_ne_nil _ _))

/-- A disconnect leaves nothing connected, carried out or not. -/
theorem good_disconnect (hI : s.Inv) (h : s.Truthful) : s.disconnect.Truthful := by
  rw [State.disconnect]
  split
  · exact ⟨nofun, fun _ => rfl⟩
  · rename_i hc
    refine ⟨h.current, fun hempty => congrArg some (Eq.symm ?_)⟩
    rw [← Bool.not_eq_true]
    intro hconn
    have hsock : s.sock = none := by
      by_contra hsock
      exact hc ((isConnected_eq s).mpr ⟨hsock, hconn⟩)
    -- with no socket there is no latest attempt, which the flag then tells
    have hlatest : s.latest = none := by
      by_contra hne
      obtain ⟨l, hl⟩ := Option.ne_none_iff_exists'.mp hne
      rw [hI.latest_sock l hl] at hsock
      cases hsock
    have hsettled := h.settled hempty
    rw [State.verdict, hlatest] at hsettled
    rw [← Option.some.inj hsettled] at hconn
    cases hconn

/-- An outcome that comes to be known changes nothing that holds. -/
theorem good_decide (h : s.Truthful) {k : Nat} {ok : Bool} (he : s.Enabled (.decide k ok)) :
    (s.decide k ok).Truthful where
  current hconn := by
    obtain ⟨j, hj, hres, hopen⟩ := h.current hconn
    have hjk : j ≠ k := by
      rintro rfl
      rw [he.2] at hres
      cases hres
    refine ⟨j, hj, ?_⟩
    rw [decide_other hjk]
    exact ⟨hres, hopen⟩
  settled hempty := by
    have hmem := he.1
    rw [show s.outstanding = [] from hempty] at hmem
    cases hmem

/-- **A completion** is right exactly under its condition. -/
theorem good_deliver (hI : s.Inv) {k : Nat} {ok : Bool} (hok : (s.socks k).result = some ok) :
    s.Good (.deliver k) ↔ s.Meets (.deliver k) := by
  rw [State.Good, State.apply, deliver_eq hok, State.Meets, hok]
  constructor
  · intro hg
    refine ⟨fun htrue j hj => ?_, fun hlast => (hg.settled hlast).symm⟩
    obtain ⟨l, hl, hres, -⟩ := hg.current
      ((isConnected_eq _).mpr ⟨by rw [hj]; nofun, Option.some.inj htrue⟩)
    obtain rfl := Option.some.inj (hj.symm.trans hl)
    exact hres
  · rintro ⟨hcurrent, hsettled⟩
    refine ⟨fun hconn => ?_, fun hlast => (hsettled hlast).symm⟩
    obtain ⟨hsock, htrue⟩ := (isConnected_eq _).mp hconn
    obtain ⟨j, hj⟩ := Option.ne_none_iff_exists'.mp hsock
    exact ⟨j, hj, hcurrent (congrArg some htrue) j hj, hI.present j hj⟩

theorem good_iff_meets (hI : s.Inv) (h : s.Truthful) {e : Event} (he : s.Enabled e) :
    s.Good e ↔ s.Meets e := by
  cases e with
  | asyncConnect => exact good_asyncConnect h
  | disconnect => exact iff_of_true (good_disconnect hI h) trivial
  | close => exact iff_of_true (good_disconnect hI h) trivial
  | decide k ok => exact iff_of_true (good_decide h he) trivial
  | deliver k =>
    obtain ⟨ok, hok⟩ := Option.ne_none_iff_exists'.mp he.2
    exact good_deliver hI hok

/-! ## Runs -/

theorem truthful_new : State.new.Truthful where
  current := nofun
  settled _ := rfl

/-- The flag is truthful after every step of a run exactly if each step
meets its condition. -/
theorem socket_truthful_iff (tr : List Event) (s : State) :
    (lts.guarded State.Good).Run tr s ↔ (lts.guarded State.Meets).Run tr s := by
  refine Lts.Run.guarded_congr (I := fun s => s.Inv ∧ s.Truthful) ?_ ?_ ?_
  · rintro s rfl
    exact ⟨inv_new, truthful_new⟩
  · rintro s e s' ⟨hI, h⟩ ⟨he, -⟩
    exact good_iff_meets hI h he
  · rintro s e s' ⟨hI, h⟩ ⟨he, rfl⟩ hm
    exact ⟨inv_apply hI he, (good_iff_meets hI h he).mpr hm⟩

/-- What a run of steps that meet their conditions comes to. -/
theorem truthful_of_meets {tr : List Event} (h : (lts.guarded State.Meets).Run tr s) :
    s.Truthful := by
  refine (Lts.Run.guarded_invariant (I := fun s => s.Inv ∧ s.Truthful) ?_ ?_ h).2
  · rintro s rfl
    exact ⟨inv_new, truthful_new⟩
  · rintro s e s' ⟨hI, hs⟩ ⟨he, rfl⟩ hm
    exact ⟨inv_apply hI he, (good_iff_meets hI hs he).mpr hm⟩

theorem run_apply {tr : List Event} (h : lts.Run tr s) (e : Event) (he : s.Enabled e) :
    lts.Run (tr ++ [e]) (s.apply e) := h.snoc ⟨he, rfl⟩

/-- The completion of a replaced socket sets the flag: the first attempt
succeeds, and a second one starts before that is delivered. -/
theorem stale_completion_connects : ¬ ∀ (tr : List Event) (s : State),
    lts.Run tr s → s.Truthful := by
  intro h
  have hstart : lts.Run [] State.new := .start rfl
  have hfirst := run_apply hstart .asyncConnect trivial
  have hqueued := run_apply hfirst (.decide 1 true) ⟨by decide, rfl⟩
  have hsecond := run_apply hqueued .asyncConnect trivial
  have hrun := run_apply hsecond (.deliver 1) ⟨by decide, by decide⟩
  obtain ⟨k, hk, hres, -⟩ := (h _ _ hrun).current (by decide)
  obtain rfl : 2 = k := Option.some.inj hk
  revert hres
  decide

end HighJump.Net.TcpSocket
