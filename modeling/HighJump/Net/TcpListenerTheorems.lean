/-
HighJump.Net.TcpListenerTheorems — when a closed listener stays closed.

`close` itself is right unless closing the acceptor throws. What breaks
the law is the other calls: none of them asks whether the listener is
closed, so binding a closed one anew opens an acceptor that no later
`close` reaches, and a call that throws on its way leaves an endpoint
remembered that nothing is bound to.
-/
import HighJump.Net.TcpListener

namespace HighJump.Net.TcpListener

open HighJump.Lib
open HighJump.Net.WsAccept (Acceptor Throws)

variable {E : Type}

/-! ## What should hold -/

/-- The endpoint of an acceptor that is open. -/
def Listener.boundTo (s : Listener E) : Option E :=
  s.acceptor.bind fun a => if a.isOpen then some a.ep else none

/-- Between two calls: a closed listener has no open acceptor, a further
`close` leaves none, and an endpoint that is remembered is that of the
open acceptor. -/
structure Listener.Sound (s : Listener E) (ep₀ : E) : Prop where
  closed : s.isClosed = true → s.boundTo = none
  close : ∀ throws, (s.close ep₀ throws).1.boundTo = none
  remembered : s.bindedEndpoint ≠ ep₀ → s.boundTo = some s.bindedEndpoint

/-- A rebind throws before there is a new acceptor. -/
def Listener.throwsEarly (s : Listener E) (t : Throws) : Bool :=
  s.acceptor.isSome && t.close || t.construct

section

variable [DecidableEq E]

/-- The call leaves a sound listener. -/
def Listener.Good (ep₀ : E) (s : Listener E) (c : Call E) : Prop := (s.call ep₀ c).1.Sound ep₀

/-- Binding anew: the endpoint is remembered already; or the call throws
before there is an acceptor, and nothing was remembered; or there is one
on a listener that is not closed, and if `set_option` throws on it,
nothing was remembered either. -/
def Listener.MeetsRebind (ep₀ : E) (s : Listener E) (ep : E) (t : Throws) : Prop :=
  s.bindedEndpoint = ep ∨
    if s.throwsEarly t then s.bindedEndpoint = ep₀
    else s.closed = false ∧ (t.setOption = true → s.bindedEndpoint = ep₀)

/-- And closing does not throw, if there is anything to close and to
forget. -/
def Listener.Meets (ep₀ : E) (s : Listener E) : Call E → Prop
  | .accept ep t _ => s.MeetsRebind ep₀ ep t
  | .asyncAccept ep t => s.MeetsRebind ep₀ ep t
  | .close throws => s.closed = true ∨ s.acceptor = none ∨ throws = false ∨ s.bindedEndpoint = ep₀
  | .acceptNext _ => True
  | .asyncAcceptNext => True

end

/-! ## Soundness of a state -/

variable {s : Listener E} {ep₀ ep : E} {t : Throws}

theorem boundTo_shut (s : Listener E) :
    ({ s with acceptor := s.acceptor.map shut } : Listener E).boundTo = none := by
  obtain ⟨acceptor, bindedEndpoint, closed⟩ := s
  cases acceptor <;> rfl

/-- What `close` leaves of a listener that is not closed. -/
theorem close_state (h : s.closed = false) (throws : Bool) :
    (s.close ep₀ throws).1 =
      if s.acceptor.isSome && throws then
        { s with acceptor := s.acceptor.map shut, closed := true }
      else { acceptor := none, bindedEndpoint := ep₀, closed := true } := by
  rw [Listener.close, h, if_neg Bool.false_ne_true]
  simp only
  split <;> rfl

/-- The acceptor is closed, whether that throws or not. -/
theorem close_boundTo (h : s.closed = false) (throws : Bool) :
    (s.close ep₀ throws).1.boundTo = none := by
  rw [close_state h]
  split
  · exact boundTo_shut { s with closed := true }
  · rfl

/-- The part of soundness that has to be checked. -/
theorem sound_of (hclosed : s.closed = true → s.boundTo = none)
    (hremembered : s.bindedEndpoint ≠ ep₀ → s.boundTo = some s.bindedEndpoint) :
    s.Sound ep₀ := by
  refine ⟨hclosed, fun throws => ?_, hremembered⟩
  cases h : s.closed with
  | true => rw [Listener.close, h, if_pos rfl]; exact hclosed h
  | false => exact close_boundTo h throws

/-- Without an open acceptor, nothing may be remembered. -/
theorem sound_iff_of_none (hnone : s.boundTo = none) : s.Sound ep₀ ↔ s.bindedEndpoint = ep₀ := by
  constructor
  · intro h
    by_contra hne
    have hbound := h.remembered hne
    rw [hnone] at hbound
    cases hbound
  · intro heq
    exact sound_of (fun _ => hnone) fun hne => absurd heq hne

/-- With an open one, the listener is not closed, and remembers its
endpoint if it remembers any. -/
theorem sound_iff_of_some (hsome : s.boundTo = some ep) :
    s.Sound ep₀ ↔ s.closed = false ∧ (s.bindedEndpoint ≠ ep₀ → s.bindedEndpoint = ep) := by
  constructor
  · intro h
    refine ⟨?_, fun hne => ?_⟩
    · rw [← Bool.not_eq_true]
      intro hclosed
      have hnone := h.closed hclosed
      rw [hsome] at hnone
      cases hnone
    · exact Option.some.inj ((h.remembered hne).symm.trans hsome)
  · rintro ⟨hopen, hep⟩
    refine sound_of (fun hclosed => ?_) fun hne => by rw [hsome, hep hne]
    rw [hopen] at hclosed
    cases hclosed

theorem sound_new (ep₀ : E) : (Listener.new ep₀).Sound ep₀ :=
  (sound_iff_of_none rfl).mpr rfl

/-! ## One call -/

theorem rebind_early (h : s.throwsEarly t = true) :
    s.rebind ep t = ({ s with acceptor := s.acceptor.map shut }, true) := by
  rw [Listener.throwsEarly, Bool.or_eq_true] at h
  unfold Listener.rebind
  rcases h with h | h
  · exact if_pos h
  · simp only [h, if_true, ite_self]

theorem rebind_late (h : s.throwsEarly t = false) : s.rebind ep t =
    if t.setOption then ({ s with acceptor := some { ep, isOpen := true } }, true)
    else ({ s with acceptor := some { ep, isOpen := true }, bindedEndpoint := ep }, false) := by
  obtain ⟨hclose, hconstruct⟩ := Bool.or_eq_false_iff.mp h
  unfold Listener.rebind
  simp only [hclose, hconstruct, Bool.false_eq_true, if_false]

theorem good_close (h : s.Sound ep₀) (throws : Bool) :
    (s.close ep₀ throws).1.Sound ep₀ ↔ s.Meets ep₀ (.close throws) := by
  have hnone := h.close throws
  rw [Listener.Meets]
  cases hc : s.closed with
  | true =>
    rw [Listener.close, hc, if_pos rfl]
    exact iff_of_true h (Or.inl rfl)
  | false =>
    rw [sound_iff_of_none hnone, close_state hc]
    cases s.acceptor <;> cases throws <;> simp

section

variable [DecidableEq E]

/-- Binding anew leaves a sound listener exactly under its condition. -/
theorem sound_rebind_iff (hne : s.bindedEndpoint ≠ ep) :
    (s.rebind ep t).1.Sound ep₀ ↔ s.MeetsRebind ep₀ ep t := by
  have hmeets : s.MeetsRebind ep₀ ep t ↔ _ := or_iff_right hne
  rw [hmeets]
  cases h : s.throwsEarly t with
  | true => rw [rebind_early h, sound_iff_of_none (boundTo_shut s), if_pos rfl]
  | false =>
    rw [rebind_late h, if_neg Bool.false_ne_true]
    cases hset : t.setOption with
    | true =>
      rw [if_pos rfl, sound_iff_of_some (show _ = some ep from rfl)]
      -- what was remembered is another endpoint
      refine and_congr_right fun _ => ?_
      constructor
      · intro hrem _
        by_contra hne₀
        exact hne (hrem hne₀)
      · intro hrem hne₀
        exact absurd (hrem rfl) hne₀
    | false =>
      rw [if_neg Bool.false_ne_true, sound_iff_of_some (show _ = some ep from rfl)]
      exact and_congr_right fun _ => iff_of_true (fun _ => rfl) nofun

/-- Both calls that bind leave what the rebind does. -/
theorem accept_state (s : Listener E) (ep : E) (t : Throws) (arrives : Bool) :
    (s.accept ep t arrives).1 = if s.bindedEndpoint = ep then s else (s.rebind ep t).1 := by
  unfold Listener.accept
  split
  · rfl
  · simp only
    split <;> rfl

theorem asyncAccept_state (s : Listener E) (ep : E) (t : Throws) :
    (s.asyncAccept ep t).1 = if s.bindedEndpoint = ep then s else (s.rebind ep t).1 := by
  unfold Listener.asyncAccept
  split
  · rfl
  · simp only
    split <;> rfl

theorem good_rebind (h : s.Sound ep₀) :
    (if s.bindedEndpoint = ep then s else (s.rebind ep t).1).Sound ep₀ ↔
      s.MeetsRebind ep₀ ep t := by
  by_cases heq : s.bindedEndpoint = ep
  · rw [if_pos heq]
    exact iff_of_true h (Or.inl heq)
  · rw [if_neg heq]
    exact sound_rebind_iff heq

theorem good_iff_meets (h : s.Sound ep₀) (c : Call E) : s.Good ep₀ c ↔ s.Meets ep₀ c := by
  unfold Listener.Good Listener.call
  cases c with
  | accept ep t arrives => simp only [accept_state]; exact good_rebind h
  | asyncAccept ep t => simp only [asyncAccept_state]; exact good_rebind h
  | acceptNext arrives => exact iff_of_true h trivial
  | asyncAcceptNext => exact iff_of_true h trivial
  | close throws => exact good_close h throws

/-! ## Runs -/

/-- The listener is sound after every call of a run exactly if each call
meets its condition. -/
theorem listener_sound_iff (ep₀ : E) (tr : List (Call E)) (s : Listener E) :
    ((lts ep₀).guarded (Listener.Good ep₀)).Run tr s ↔
      ((lts ep₀).guarded (Listener.Meets ep₀)).Run tr s := by
  refine Lts.Run.guarded_congr (I := fun s => s.Sound ep₀) ?_ ?_ ?_
  · rintro s rfl
    exact sound_new ep₀
  · intro s c s' h _
    exact good_iff_meets h c
  · rintro s c s' h rfl hm
    exact (good_iff_meets h c).mpr hm

theorem run_call {tr : List (Call E)} (h : (lts ep₀).Run tr s) (c : Call E) :
    (lts ep₀).Run (tr ++ [c]) (s.call ep₀ c).1 := h.snoc rfl

/-- What a run of calls that meet their conditions comes to. -/
theorem sound_of_meets {tr : List (Call E)}
    (h : ((lts ep₀).guarded (Listener.Meets ep₀)).Run tr s) : s.Sound ep₀ := by
  refine Lts.Run.guarded_invariant (I := fun s => s.Sound ep₀) ?_ ?_ h
  · rintro s rfl
    exact sound_new ep₀
  · rintro s c s' hs rfl hm
    exact (good_iff_meets hs c).mpr hm

end

/-- Ports; `0` is that of `endpoint_t()`. A closed listener is bound to a
port, and closing it again does not close the acceptor. -/
theorem closed_listener_opens : ¬ ∀ (tr : List (Call Nat)) (s : Listener Nat),
    (lts 0).Run tr s → s.Sound 0 := by
  intro h
  have hstart : (lts 0).Run [] (Listener.new 0) := .start rfl
  have hclosed := run_call hstart (.close false)
  have hopened := run_call hclosed (.accept 8080 ⟨false, false, false⟩ false)
  have hnone := (h _ _ hopened).close false
  revert hnone
  decide

end HighJump.Net.TcpListener
