/-
HighJump.Net.WsAcceptTheorems — when a server knows what it is bound to.

What a `rebind` leaves depends on the first of its calls that throws
(`firstThrow`), and three lemmas say it: none, `set_option`, or one before
that. An `accept` that throws anywhere keeps `_mu`. An `async_accept` that
throws has closed the old acceptor and still remembers its endpoint, or
has an open acceptor on an endpoint it does not remember; only a server
that remembered nothing is none the worse. `endpoint_t()` stands for
nothing remembered.
-/
import HighJump.Net.WsAccept

namespace HighJump.Net.WsAccept

open HighJump.Lib
open HighJump.Net.WsServer (Kind)

variable {E : Type}

/-! ## What should hold -/

/-- The endpoint of an acceptor that is open. -/
def Server.boundTo (s : Server E) : Option E :=
  s.acceptor.bind fun a => if a.isOpen then some a.ep else none

inductive Point where
  | close
  | construct
  | setOption
  deriving DecidableEq, Repr

/-- The first call of a rebind that throws. -/
def Server.firstThrow (s : Server E) (t : Throws) : Option Point :=
  if t.close && s.acceptor.isSome then some .close
  else if t.construct then some .construct
  else if t.setOption then some .setOption
  else none

section

variable [DecidableEq E]

/-- Between two calls: `_mu` is free; the acceptor is open exactly on the
endpoint that is remembered, if one is; and if it is not open, a call on
any endpoint constructs a new one for it. -/
structure Server.Consistent (s : Server E) (kind : Kind) (ep₀ : E) : Prop where
  free : s.locked = false
  bound : ∀ ep, s.boundTo = some ep → s.bindedEndpoint = ep
  remembered : s.bindedEndpoint ≠ ep₀ → s.boundTo = some s.bindedEndpoint
  again : s.boundTo = none → ∀ ep t p, ep ≠ ep₀ → t.close = false →
    (s.accept kind ep t p).1.attempts = s.attempts ++ [ep] ∧
      (s.asyncAccept ep t).1.attempts = s.attempts ++ [ep]

/-- The call leaves a consistent server. -/
def Server.Good (kind : Kind) (ep₀ : E) (s : Server E) (c : Call E) : Prop :=
  (s.call kind c).1.Consistent kind ep₀

/-- The endpoint is the one remembered, or nothing throws; or nothing was
remembered, and an `async_accept` throws before there is an acceptor. -/
def Server.Meets (ep₀ : E) (s : Server E) : Call E → Prop
  | .accept ep t _ => s.bindedEndpoint = ep ∨ s.firstThrow t = none
  | .asyncAccept ep t => s.bindedEndpoint = ep ∨ s.firstThrow t = none ∨
      s.bindedEndpoint = ep₀ ∧ s.firstThrow t ≠ some .setOption

end

/-! ## What a rebind does -/

section

variable {s : Server E} {t : Throws} {reset : Bool} {ep : E}

theorem firstThrow_close :
    s.firstThrow t = some .close ↔ (t.close && s.acceptor.isSome) = true := by
  rw [Server.firstThrow]
  cases (t.close && s.acceptor.isSome) <;> cases t.construct <;> cases t.setOption <;> simp

theorem firstThrow_construct : s.firstThrow t = some .construct ↔
    (t.close && s.acceptor.isSome) = false ∧ t.construct = true := by
  rw [Server.firstThrow]
  cases (t.close && s.acceptor.isSome) <;> cases t.construct <;> cases t.setOption <;> simp

theorem firstThrow_setOption : s.firstThrow t = some .setOption ↔
    (t.close && s.acceptor.isSome) = false ∧ t.construct = false ∧ t.setOption = true := by
  rw [Server.firstThrow]
  cases (t.close && s.acceptor.isSome) <;> cases t.construct <;> cases t.setOption <;> simp

theorem firstThrow_none : s.firstThrow t = none ↔
    (t.close && s.acceptor.isSome) = false ∧ t.construct = false ∧ t.setOption = false := by
  rw [Server.firstThrow]
  cases (t.close && s.acceptor.isSome) <;> cases t.construct <;> cases t.setOption <;> simp

theorem closeOld_throws (reset : Bool) (h : (t.close && s.acceptor.isSome) = true) :
    ∃ a, s.closeOld reset t = ({ s with acceptor := some a }, true) ∧ a.isOpen = false := by
  obtain ⟨hclose, hsome⟩ := Bool.and_eq_true_iff.mp h
  obtain ⟨a, ha⟩ := Option.isSome_iff_exists.mp hsome
  refine ⟨{ a with isOpen := false }, ?_, rfl⟩
  simp only [Server.closeOld, ha, hclose, if_true]

/-- Closing that does not throw leaves no acceptor open. -/
theorem closeOld_done (reset : Bool) (h : (t.close && s.acceptor.isSome) = false) :
    ∃ acc : Option (Acceptor E), s.closeOld reset t = ({ s with acceptor := acc }, false) ∧
      acc.any Acceptor.isOpen = false := by
  obtain ⟨locked, closed, acceptor, bindedEndpoint, attempts⟩ := s
  cases acceptor with
  | none => exact ⟨none, rfl, rfl⟩
  | some a =>
      have hclose : t.close = false := by simpa using h
      refine ⟨if reset then none else some { a with isOpen := false }, ?_, ?_⟩
      · exact if_neg (by rw [hclose]; exact Bool.false_ne_true)
      · cases reset <;> rfl

/-- Nothing throws. -/
theorem rebind_done (h : s.firstThrow t = none) :
    s.rebind reset ep t =
      ({ s with acceptor := some { ep, isOpen := true }, bindedEndpoint := ep,
                attempts := s.attempts ++ [ep] }, false) := by
  obtain ⟨hclose, hconstruct, hset⟩ := firstThrow_none.mp h
  obtain ⟨acc, hold, _⟩ := closeOld_done reset hclose
  rw [Server.rebind, hold]
  simp [hconstruct, hset]

/-- `set_option` throws on an acceptor that is there already. -/
theorem rebind_setOption (h : s.firstThrow t = some .setOption) :
    s.rebind reset ep t =
      ({ s with acceptor := some { ep, isOpen := true }, attempts := s.attempts ++ [ep] },
        true) := by
  obtain ⟨hclose, hconstruct, hset⟩ := firstThrow_setOption.mp h
  obtain ⟨acc, hold, _⟩ := closeOld_done reset hclose
  rw [Server.rebind, hold]
  simp [hconstruct, hset]

/-- An earlier call throws: no acceptor is open any more. -/
theorem rebind_early (reset : Bool) (ep : E)
    (h : s.firstThrow t = some .close ∨ s.firstThrow t = some .construct) :
    ∃ (acc : Option (Acceptor E)) (attempts : List E),
      s.rebind reset ep t = ({ s with acceptor := acc, attempts }, true) ∧
        acc.any Acceptor.isOpen = false := by
  rcases h with h | h
  · obtain ⟨a, hold, hclosed⟩ := closeOld_throws reset (firstThrow_close.mp h)
    refine ⟨some a, s.attempts, ?_, hclosed⟩
    rw [Server.rebind, hold]
    rfl
  · obtain ⟨hclose, hconstruct⟩ := firstThrow_construct.mp h
    obtain ⟨acc, hold, hacc⟩ := closeOld_done reset hclose
    refine ⟨acc, s.attempts ++ [ep], ?_, hacc⟩
    rw [Server.rebind, hold]
    simp [hconstruct]

/-- Unless closing throws, the new acceptor is at least tried. -/
theorem rebind_attempts (s : Server E) (reset : Bool) (ep : E) (h : t.close = false) :
    (s.rebind reset ep t).1.attempts = s.attempts ++ [ep] := by
  have hclose : (t.close && s.acceptor.isSome) = false := by rw [h, Bool.false_and]
  obtain ⟨acc, hold, _⟩ := closeOld_done reset hclose
  rw [Server.rebind, hold]
  cases hc : t.construct <;> cases hs : t.setOption <;> simp

/-- However it ends, a rebind leaves the rest of the server alone; and it
throws if one of its calls does. -/
theorem rebind_frame :
    (s.rebind reset ep t).1.locked = s.locked ∧ (s.rebind reset ep t).1.closed = s.closed ∧
      (s.rebind reset ep t).2 = (s.firstThrow t).isSome := by
  have hearly (h : s.firstThrow t = some .close ∨ s.firstThrow t = some .construct) :
      (s.rebind reset ep t).1.locked = s.locked ∧ (s.rebind reset ep t).1.closed = s.closed ∧
        (s.rebind reset ep t).2 = true := by
    obtain ⟨acc, attempts, heq, _⟩ := rebind_early reset ep h
    rw [heq]
    exact ⟨rfl, rfl, rfl⟩
  cases h : s.firstThrow t with
  | none => rw [rebind_done h]; exact ⟨rfl, rfl, rfl⟩
  | some point =>
      cases point with
      | setOption => rw [rebind_setOption h]; exact ⟨rfl, rfl, rfl⟩
      | close => exact hearly (.inl h)
      | construct => exact hearly (.inr h)

theorem boundTo_of_closed {acc : Option (Acceptor E)} (h : acc.any Acceptor.isOpen = false) :
    (acc.bind fun a => if a.isOpen then some a.ep else none) = none := by
  cases acc with
  | none => rfl
  | some a =>
      rw [Option.any_some] at h
      rw [Option.bind_some, h]
      rfl

end

/-! ## One call -/

section

variable [DecidableEq E] {kind : Kind} {ep₀ : E} {s : Server E} {t : Throws} {ep : E}

/-- The part of consistency that has to be checked; the retry follows. -/
theorem consistent_of (hclosed : s.closed = false) (hfree : s.locked = false)
    (hbound : ∀ ep, s.boundTo = some ep → s.bindedEndpoint = ep)
    (hremembered : s.bindedEndpoint ≠ ep₀ → s.boundTo = some s.bindedEndpoint) :
    s.Consistent kind ep₀ := by
  refine ⟨hfree, hbound, hremembered, fun hnone ep t p hep hclose => ?_⟩
  have hne : s.bindedEndpoint ≠ ep := by
    rintro rfl
    have hopen := hremembered hep
    rw [hnone] at hopen
    cases hopen
  constructor
  · have hattempts := rebind_attempts { s with locked := true } true ep hclose
    rw [Server.accept, hfree]
    simp only [Bool.false_eq_true, if_false, if_neg hne]
    split <;> exact hattempts
  · have hattempts := rebind_attempts s false ep hclose
    rw [Server.asyncAccept, hclosed]
    simp only [Bool.false_eq_true, if_false, if_neg hne]
    split <;> exact hattempts

/-- Bound to a new endpoint, and nothing else. -/
theorem consistent_bound {attempts : List E} (hclosed : s.closed = false)
    (hfree : s.locked = false) :
    ({ s with acceptor := some { ep, isOpen := true }, bindedEndpoint := ep, attempts } :
      Server E).Consistent kind ep₀ := by
  refine consistent_of hclosed hfree (fun ep' h => ?_) fun _ => rfl
  exact Option.some.inj h

/-- An `accept` that rebinds: what is left if it throws, and if it does
not. -/
theorem accept_rebind (hfree : s.locked = false) (hne : s.bindedEndpoint ≠ ep) (p : Peer) :
    (s.accept kind ep t p).1 =
      if (s.firstThrow t).isSome then ({ s with locked := true : Server E }.rebind true ep t).1
      else
        { ({ s with locked := true : Server E }.rebind true ep t).1 with locked := false } := by
  have hthrew : ({ s with locked := true : Server E }.rebind true ep t).2 =
      (s.firstThrow t).isSome := rebind_frame.2.2
  rw [Server.accept, hfree, if_neg Bool.false_ne_true, if_neg hne]
  simp only [hthrew]
  split <;> rfl

/-- **`accept` is exception-safe exactly if** there is no exception. -/
theorem good_accept (h : s.Consistent kind ep₀) (hclosed : s.closed = false) (p : Peer) :
    s.Good kind ep₀ (.accept ep t p) ↔ s.Meets ep₀ (.accept ep t p) := by
  by_cases heq : s.bindedEndpoint = ep
  · have hcall : (s.call kind (.accept ep t p)).1 = s := by
      rw [Server.call, Server.accept, h.free, if_neg Bool.false_ne_true, if_pos heq]
    rw [Server.Good, hcall]
    exact iff_of_true h (.inl heq)
  · have hmeets : s.Meets ep₀ (.accept ep t p) ↔ s.firstThrow t = none := or_iff_right heq
    rw [hmeets, Server.Good, Server.call, accept_rebind h.free heq]
    cases hfirst : s.firstThrow t with
    | none =>
        have hbound : { s with locked := true : Server E }.firstThrow t = none := hfirst
        refine iff_of_true ?_ rfl
        rw [rebind_done hbound]
        exact consistent_bound (s := { s with locked := false }) hclosed rfl
    | some point =>
        refine iff_of_false (fun hc => ?_) (Option.some_ne_none point)
        -- `_mu` is still locked
        have hfree := hc.free
        rw [Option.isSome_some, if_pos rfl, rebind_frame.1] at hfree
        cases hfree

/-- An acceptor that is gone is no loss to a server that remembers
nothing. -/
theorem consistent_closed_iff {acc : Option (Acceptor E)} {attempts : List E}
    (hclosed : s.closed = false) (hfree : s.locked = false)
    (hacc : acc.any Acceptor.isOpen = false) :
    ({ s with acceptor := acc, attempts } : Server E).Consistent kind ep₀ ↔
      s.bindedEndpoint = ep₀ := by
  have hnone : ({ s with acceptor := acc, attempts } : Server E).boundTo = none :=
    boundTo_of_closed hacc
  constructor
  · intro h
    by_contra hne
    have hopen := h.remembered hne
    rw [hnone] at hopen
    cases hopen
  · intro heq
    refine consistent_of hclosed hfree (fun ep' h => ?_) fun hne => absurd heq hne
    rw [hnone] at h
    cases h

/-- **`async_accept`** may also throw early on a server that remembers
nothing. -/
theorem good_asyncAccept (h : s.Consistent kind ep₀) (hclosed : s.closed = false) :
    s.Good kind ep₀ (.asyncAccept ep t) ↔ s.Meets ep₀ (.asyncAccept ep t) := by
  by_cases heq : s.bindedEndpoint = ep
  · have hcall : (s.call kind (.asyncAccept ep t)).1 = s := by
      rw [Server.call, Server.asyncAccept, hclosed, if_neg Bool.false_ne_true, if_pos heq]
    rw [Server.Good, hcall]
    exact iff_of_true h (.inl heq)
  · have hcall : (s.call kind (.asyncAccept ep t)).1 = (s.rebind false ep t).1 := by
      rw [Server.call, Server.asyncAccept, hclosed, if_neg Bool.false_ne_true, if_neg heq]
      simp only
      split <;> rfl
    have hmeets : s.Meets ep₀ (.asyncAccept ep t) ↔ s.firstThrow t = none ∨
        s.bindedEndpoint = ep₀ ∧ s.firstThrow t ≠ some .setOption := or_iff_right heq
    have hearly (hp : s.firstThrow t = some .close ∨ s.firstThrow t = some .construct) :
        (s.rebind false ep t).1.Consistent kind ep₀ ↔ s.bindedEndpoint = ep₀ := by
      obtain ⟨acc, attempts, hr, hacc⟩ := rebind_early false ep hp
      rw [hr]
      exact consistent_closed_iff hclosed h.free hacc
    rw [hmeets, Server.Good, hcall]
    cases hfirst : s.firstThrow t with
    | none =>
        refine iff_of_true ?_ (.inl rfl)
        rw [rebind_done hfirst]
        exact consistent_bound hclosed h.free
    | some point =>
        cases point with
        | close => simpa using hearly (.inl hfirst)
        | construct => simpa using hearly (.inr hfirst)
        | setOption =>
            refine iff_of_false (fun hc => ?_) (by simp)
            rw [rebind_setOption hfirst] at hc
            exact heq (hc.bound ep rfl)

theorem good_iff_meets (h : s.Consistent kind ep₀) (hclosed : s.closed = false) (c : Call E) :
    s.Good kind ep₀ c ↔ s.Meets ep₀ c := by
  cases c with
  | accept ep t p => exact good_accept h hclosed p
  | asyncAccept ep t => exact good_asyncAccept h hclosed

theorem call_closed (s : Server E) (kind : Kind) (c : Call E) :
    (s.call kind c).1.closed = s.closed := by
  cases c with
  | accept ep t p =>
      rw [Server.call, Server.accept]
      split
      · rfl
      · split
        · rfl
        · simp only
          split <;> exact (rebind_frame (s := { s with locked := true })).2.1
  | asyncAccept ep t =>
      rw [Server.call, Server.asyncAccept]
      split
      · rfl
      · split
        · rfl
        · simp only
          split <;> exact rebind_frame.2.1

end

/-! ## Runs -/

section

variable [DecidableEq E] (kind : Kind) (ep₀ : E)

theorem consistent_new : (Server.new ep₀).Consistent kind ep₀ :=
  consistent_of rfl rfl nofun
    fun h => absurd rfl h

/-- **Every call of a run leaves a consistent server exactly if** each of
them meets its condition. -/
theorem run_consistent_iff (tr : List (Call E)) (s : Server E) :
    ((acceptLts kind ep₀).guarded (Server.Good kind ep₀)).Run tr s ↔
      ((acceptLts kind ep₀).guarded (Server.Meets ep₀)).Run tr s := by
  refine Lts.Run.guarded_congr
    (I := fun s => s.Consistent kind ep₀ ∧ s.closed = false) ?_ ?_ ?_
  · rintro s rfl
    exact ⟨consistent_new kind ep₀, rfl⟩
  · rintro s c s' ⟨h, hclosed⟩ -
    exact good_iff_meets h hclosed c
  · rintro s c s' ⟨h, hclosed⟩ rfl hm
    exact ⟨(good_iff_meets h hclosed c).mpr hm, (call_closed s kind c).trans hclosed⟩

theorem run_call {kind : Kind} {ep₀ : E} {tr : List (Call E)} {s : Server E}
    (h : (acceptLts kind ep₀).Run tr s) (c : Call E) :
    (acceptLts kind ep₀).Run (tr ++ [c]) (s.call kind c).1 := h.snoc rfl

/-- What a run of good calls comes to. -/
theorem consistent_of_good {tr : List (Call E)} {s : Server E}
    (h : ((acceptLts kind ep₀).guarded (Server.Good kind ep₀)).Run tr s) :
    s.Consistent kind ep₀ := by
  refine Lts.Run.guarded_post (I := fun s => s.Consistent kind ep₀) ?_ ?_ h
  · rintro s rfl
    exact consistent_new kind ep₀
  · rintro s c s' rfl hgood
    exact hgood

end

/-- Nothing throws. -/
def quiet : Throws := ⟨false, false, false⟩

/-- The port is taken. -/
def taken : Throws := ⟨false, true, false⟩

def peer : Peer := ⟨false, false, false⟩

/-- Ports; `0` is that of `endpoint_t()`. Bound to one port, an `accept` on
another that is taken throws: `_mu` stays locked, and the next `accept`
does not come back. -/
theorem run_rebind_throws :
    ∃ s : Server Nat,
      (acceptLts .wsServer 0).Run ([.accept 8080 quiet peer] ++ [.accept 9090 taken peer]) s ∧
      s.locked = true ∧ (s.accept .wsServer 8080 quiet peer).2 = .blocked ∧
      ¬ ((acceptLts .wsServer 0).guarded (Server.Good .wsServer 0)).Run
        ([.accept 8080 quiet peer] ++ [.accept 9090 taken peer]) s := by
  have hbound := run_call (.start rfl : (acceptLts .wsServer 0).Run [] _) (.accept 8080 quiet peer)
  refine ⟨_, run_call hbound (.accept 9090 taken peer), rfl, rfl, fun hg => ?_⟩
  have hfree := (consistent_of_good _ _ hg).free
  cases hfree

end HighJump.Net.WsAccept
