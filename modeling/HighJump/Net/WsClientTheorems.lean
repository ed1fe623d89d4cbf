/-
HighJump.Net.WsClientTheorems — when `_ws` is there for whoever uses it.

The transfers and both ways of closing look at the connected flag first,
so with `connected` implying a stream they are safe. Connecting does not
look, in none of its steps, and the completion of an `async_close` does
not either. Once the stream is gone it stays away (`gone_run`), so no
client connects again after a close.

`_ws` is private, but whoever follows the calls and what they came to
knows whether it is there (`heard_run`), so the condition can be read off
them (`client_safe_iff_heard`).
-/
import HighJump.Net.WsClient

namespace HighJump.Net.WsClient

open HighJump.Lib

/-! ## What should hold -/

/-- There is a client, and if it is connected it has its stream. -/
def Safe : Option Client → Prop
  | none => False
  | some s => s.connected = true → s.ws = true

/-- The step ends safely. -/
def Good (w : Option Client) (e : Event) : Prop := ∀ s, w = some s → Safe (s.after e)

/-- A step of connecting fails, or there is a stream; an `async_close`
does not complete on a client that is connected. -/
def Client.MeetsCompletion (s : Client) (ok : Bool) : Op → Prop
  | .resolve | .tcpConnect | .handshake => ok = true → s.ws = true
  | .close => s.connected = false
  | .write | .read => True

/-- And a `connect` that resolves its host finds a stream. -/
def Client.Meets (s : Client) : Event → Prop
  | .connect o => o.resolves = true → s.ws = true
  | .complete op ok => s.MeetsCompletion ok op
  | .asyncConnect | .send _ | .asyncSend | .recv _ | .asyncRecv | .close | .asyncClose => True

def Meets (w : Option Client) (e : Event) : Prop := ∀ s, w = some s → s.Meets e

/-! ## Single steps -/

variable {s : Client}

theorem deref_of_ws (h : s.ws = true) : s.deref = some () := if_pos h

theorem deref_eq_none (h : s.ws = false) : s.deref = none :=
  if_neg fun htrue => Bool.false_ne_true (h.symm.trans htrue)

/-- What is done unless a test says otherwise, and needs the stream. -/
theorem safe_unless {b : Bool} {r : Reply} {f : Unit → Client × Reply} (h : Safe (some s))
    (hws : b = false → s.ws = true) (hf : Safe (some (f ()).1)) :
    Safe ((if b then some (s, r) else s.deref.map f).map Prod.fst) := by
  cases b with
  | true => exact h
  | false =>
    rw [deref_of_ws (hws rfl)]
    exact hf

theorem safe_connect (h : Safe (some s)) (o : Outcomes) :
    Safe (s.after (.connect o)) ↔ s.Meets (.connect o) := by
  obtain ⟨resolves, connects, handshakes⟩ := o
  rw [Client.Meets, Client.after, Client.call, Client.connect]
  cases resolves with
  | false => exact iff_of_true h nofun
  | true =>
    cases hws : s.ws with
    | false =>
      rw [deref_eq_none hws]
      exact iff_of_false (fun h => h) fun h => Bool.false_ne_true (h rfl)
    | true =>
      rw [deref_of_ws hws]
      refine iff_of_true ?_ fun _ => rfl
      cases connects <;> cases handshakes <;> simp [Safe, hws]

theorem ws_of_connected (h : Safe (some s)) (hc : (!s.connected) = false) : s.ws = true :=
  h (by rw [← Bool.not_not s.connected, hc]; rfl)

/-- Sending and receiving finds the stream of a connected client. -/
theorem safe_transfer (h : Safe (some s)) (ok : Bool) : Safe ((s.transfer ok).map Prod.fst) :=
  safe_unless h (ws_of_connected h) h

theorem safe_asyncTransfer (h : Safe (some s)) (op : Op) :
    Safe ((s.asyncTransfer op).map Prod.fst) :=
  safe_unless h (ws_of_connected h) h

/-- Closing leaves a client that is not connected, whatever it finds. -/
theorem safe_close (h : Safe (some s)) : Safe (s.after .close) := by
  rw [Client.after, Client.call, Client.close]
  cases hc : s.connected with
  | false => exact h
  | true =>
    simp only [h hc, Client.deref]
    exact nofun

theorem safe_asyncClose (h : Safe (some s)) : Safe (s.after .asyncClose) := by
  rw [Client.after, Client.call, Client.asyncClose]
  cases hc : s.connected with
  | false => exact h
  | true =>
    simp only [h hc, Client.deref]
    exact nofun

/-- The stream is needed to go on, and only then. -/
theorem safe_goOn (h : Safe (some s)) (ok : Bool) (next : Op) :
    Safe ((s.goOn ok next).map Prod.fst) ↔ (ok = true → s.ws = true) := by
  constructor
  · rintro hs rfl
    rw [← Bool.not_eq_false]
    intro hws
    rw [Client.goOn, deref_eq_none hws] at hs
    exact hs
  · intro hws
    exact safe_unless h (fun hok => hws (by rw [← Bool.not_not ok, hok]; rfl)) h

theorem safe_complete (h : Safe (some s)) (op : Op) (ok : Bool) :
    Safe (s.after (.complete op ok)) ↔ s.Meets (.complete op ok) := by
  cases op with
  | resolve =>
    exact safe_goOn (s := { s with pending := s.pending.erase .resolve }) h ok .tcpConnect
  | tcpConnect =>
    exact safe_goOn (s := { s with pending := s.pending.erase .tcpConnect }) h ok .handshake
  | handshake =>
    cases ok with
    | false => exact iff_of_true h nofun
    | true => exact ⟨fun hs _ => hs rfl, fun hm _ => hm rfl⟩
  | write => exact iff_of_true h trivial
  | read => exact iff_of_true h trivial
  | close =>
    constructor
    · intro hs
      exact (Bool.not_eq_true _).mp fun hc => Bool.false_ne_true (hs hc)
    · intro hm hc
      exact absurd (hm.symm.trans hc) Bool.false_ne_true

theorem safe_iff_meets (h : Safe (some s)) (e : Event) : Safe (s.after e) ↔ s.Meets e := by
  cases e with
  | connect o => exact safe_connect h o
  | asyncConnect => exact iff_of_true h trivial
  | send ok => exact iff_of_true (safe_transfer h ok) trivial
  | asyncSend => exact iff_of_true (safe_asyncTransfer h .write) trivial
  | recv ok => exact iff_of_true (safe_transfer h ok) trivial
  | asyncRecv => exact iff_of_true (safe_asyncTransfer h .read) trivial
  | close => exact iff_of_true (safe_close h) trivial
  | asyncClose => exact iff_of_true (safe_asyncClose h) trivial
  | complete op ok => exact safe_complete h op ok

/-! ## After a close -/

/-- Without a stream, a `connect` that resolves its host goes through the
null pointer. -/
theorem connect_gone (hws : s.ws = false) {o : Outcomes} (ho : o.resolves = true) :
    s.after (.connect o) = none := by
  rw [Client.after, Client.call, Client.connect, ho, deref_eq_none hws]
  rfl

/-- Where the test says otherwise, nothing happens. -/
theorem unless_gone {b : Bool} {r : Reply} {f : Unit → Client × Reply} {s' : Client}
    (hws : s.ws = false)
    (h : (if b then some (s, r) else s.deref.map f).map Prod.fst = some s') : s' = s := by
  rw [deref_eq_none hws] at h
  cases b with
  | true => exact (Option.some.inj h).symm
  | false => cases h

theorem close_gone {s' : Client} (hws : s.ws = false) (h : s.after .close = some s') :
    s'.ws = false := by
  rw [Client.after, Client.call, Client.close] at h
  cases hc : s.connected with
  | false =>
    rw [hc] at h
    exact Option.some.inj h ▸ hws
  | true =>
    simp only [hc, hws] at h
    exact Option.some.inj h ▸ rfl

theorem asyncClose_gone {s' : Client} (hws : s.ws = false) (h : s.after .asyncClose = some s') :
    s'.ws = false := by
  rw [Client.after, Client.call, Client.asyncClose] at h
  cases hc : s.connected with
  | false =>
    rw [hc] at h
    exact Option.some.inj h ▸ hws
  | true =>
    simp only [hc, hws] at h
    exact Option.some.inj h ▸ rfl

theorem complete_gone {s' : Client} {op : Op} {ok : Bool} (hws : s.ws = false)
    (h : s.after (.complete op ok) = some s') : s'.ws = false := by
  cases op with
  | resolve =>
    have heq := unless_gone (s := { s with pending := s.pending.erase .resolve }) hws h
    exact heq ▸ hws
  | tcpConnect =>
    have heq := unless_gone (s := { s with pending := s.pending.erase .tcpConnect }) hws h
    exact heq ▸ hws
  | handshake => cases ok <;> exact Option.some.inj h ▸ hws
  | write => exact Option.some.inj h ▸ hws
  | read => exact Option.some.inj h ▸ hws
  | close => exact Option.some.inj h ▸ rfl

/-- No step makes a stream. -/
theorem ws_after {s' : Client} {e : Event} (hws : s.ws = false) (h : s.after e = some s') :
    s'.ws = false := by
  cases e with
  | connect o =>
    cases hr : o.resolves with
    | true =>
      rw [connect_gone hws hr] at h
      cases h
    | false =>
      rw [Client.after, Client.call, Client.connect, hr] at h
      exact Option.some.inj h ▸ hws
  | asyncConnect => exact Option.some.inj h ▸ hws
  | send ok => exact unless_gone hws h ▸ hws
  | recv ok => exact unless_gone hws h ▸ hws
  | asyncSend => exact unless_gone hws h ▸ hws
  | asyncRecv => exact unless_gone hws h ▸ hws
  | close => exact close_gone hws h
  | asyncClose => exact asyncClose_gone hws h
  | complete op ok => exact complete_gone hws h

/-- Once the stream is gone it stays away, whatever follows. -/
theorem gone_run {tr : List Event} {w : Option Client} (hws : s.ws = false)
    (h : Lts.Run { lts with init := fun w => w = some s } tr w) :
    ∀ s', w = some s' → s'.ws = false := by
  refine Lts.Run.invariant (I := fun _ w => ∀ s', w = some s' → s'.ws = false) ?_ ?_ h
  · rintro w rfl s' ⟨⟩
    exact hws
  · rintro _ w e w' - hw ⟨s₀, rfl, -, rfl⟩ s' hs'
    exact ws_after (hw s₀ rfl) hs'

/-! ## Runs -/

theorem safe_new : Safe (some .new) := nofun

theorem guarded_good_iff {tr : List Event} {w : Option Client} :
    (lts.guarded Good).Run tr w ↔ (lts.guarded Meets).Run tr w := by
  refine Lts.Run.guarded_congr (I := Safe) ?_ ?_ ?_
  · rintro w rfl
    exact safe_new
  · rintro w e w' h ⟨s, rfl, -, -⟩
    constructor
    · rintro hg _ ⟨⟩
      exact (safe_iff_meets h e).mp (hg s rfl)
    · rintro hm _ ⟨⟩
      exact (safe_iff_meets h e).mpr (hm s rfl)
  · rintro w e w' h ⟨s, rfl, -, rfl⟩ hm
    exact (safe_iff_meets h e).mpr (hm s rfl)

/-- Every step of a run ends safely exactly if each step meets its
condition. -/
theorem client_safe_iff (tr : List Event) (w : Option Client) :
    (lts.guarded Good).Run tr w ↔ (lts.guarded Meets).Run tr w := guarded_good_iff

/-- What a run of steps that meet their conditions comes to. -/
theorem safe_of_meets {tr : List Event} {w : Option Client}
    (h : (lts.guarded Meets).Run tr w) : Safe w := by
  refine Lts.Run.guarded_invariant (I := Safe) ?_ ?_ h
  · rintro w rfl
    exact safe_new
  · rintro w e w' hs ⟨s, rfl, -, rfl⟩ hm
    exact (safe_iff_meets hs e).mpr (hm s rfl)

/-! ## By what was called -/

/-- The flags as a call, or a step that completes, leaves them. -/
def Client.hear (s : Client) : Event → Client
  | .connect o => { s with connected := s.connected || (o.resolves && o.connects && o.handshakes) }
  | .close => { s with connected := false, ws := s.ws && !s.connected }
  | .asyncClose => { s with connected := false }
  | .complete .handshake true => { s with connected := true }
  | .complete .close _ => { s with ws := false }
  | _ => s

/-- The flags by the history. -/
def heard (tr : List Event) : Client := tr.foldl Client.hear .new

/-- They are those of the client. -/
def Client.Like (s t : Client) : Prop := s.ws = t.ws ∧ s.connected = t.connected

theorem Client.Like.meets {t : Client} (h : s.Like t) (e : Event) : s.Meets e ↔ t.Meets e := by
  cases e with
  | connect o => rw [Client.Meets, Client.Meets, h.1]
  | complete op ok => cases op <;> simp [Client.Meets, Client.MeetsCompletion, h.1, h.2]
  | _ => exact Iff.rfl

theorem Client.Like.hear {t : Client} (h : s.Like t) (e : Event) : (s.hear e).Like (t.hear e) := by
  obtain ⟨hws, hc⟩ := h
  unfold Client.hear
  split <;> simp [Client.Like, hws, hc]

theorem like_unless {s' : Client} {r : Reply} {f : Unit → Client × Reply} {b : Bool}
    (hf : (f ()).1.Like s) (h : (if b then some (s, r) else s.deref.map f).map Prod.fst = some s') :
    s'.Like s := by
  cases b with
  | true => exact Option.some.inj h ▸ ⟨rfl, rfl⟩
  | false =>
    cases hws : s.ws with
    | false =>
      rw [deref_eq_none hws] at h
      cases h
    | true =>
      rw [deref_of_ws hws] at h
      exact Option.some.inj h ▸ hf

theorem like_connect {s' : Client} {o : Outcomes} (h : s.after (.connect o) = some s') :
    s'.Like (s.hear (.connect o)) := by
  obtain ⟨resolves, connects, handshakes⟩ := o
  cases hws : s.ws with
  | false =>
    cases resolves with
    | false => exact Option.some.inj h ▸ ⟨rfl, (Bool.or_false _).symm⟩
    | true =>
      rw [connect_gone hws rfl] at h
      cases h
  | true =>
    rw [Client.after, Client.call, Client.connect, deref_of_ws hws] at h
    cases resolves <;> cases connects <;> cases handshakes <;> obtain rfl := Option.some.inj h <;>
      simp [Client.Like, Client.hear]

theorem like_close {s' : Client} (hsafe : Safe (some s)) (h : s.after .close = some s') :
    s'.Like (s.hear .close) := by
  rw [Client.after, Client.call, Client.close] at h
  cases hc : s.connected with
  | false =>
    rw [hc] at h
    obtain rfl := Option.some.inj h
    simp [Client.Like, Client.hear, hc]
  | true =>
    simp only [hc, hsafe hc, Client.deref] at h
    obtain rfl := Option.some.inj h
    simp [Client.Like, Client.hear, hc]

theorem like_asyncClose {s' : Client} (hsafe : Safe (some s)) (h : s.after .asyncClose = some s') :
    s'.Like (s.hear .asyncClose) := by
  rw [Client.after, Client.call, Client.asyncClose] at h
  cases hc : s.connected with
  | false =>
    rw [hc] at h
    obtain rfl := Option.some.inj h
    exact ⟨rfl, hc⟩
  | true =>
    simp only [hc, hsafe hc, Client.deref] at h
    obtain rfl := Option.some.inj h
    exact ⟨hsafe hc ▸ rfl, rfl⟩

/-- The flags of the client behind a step are those heard. -/
theorem like_after {s' : Client} {e : Event} (hsafe : Safe (some s)) (h : s.after e = some s') :
    s'.Like (s.hear e) := by
  cases e with
  | connect o => exact like_connect h
  | asyncConnect => exact Option.some.inj h ▸ ⟨rfl, rfl⟩
  | send ok => exact like_unless ⟨rfl, rfl⟩ h
  | recv ok => exact like_unless ⟨rfl, rfl⟩ h
  | asyncSend => exact like_unless ⟨rfl, rfl⟩ h
  | asyncRecv => exact like_unless ⟨rfl, rfl⟩ h
  | close => exact like_close hsafe h
  | asyncClose => exact like_asyncClose hsafe h
  | complete op ok =>
    cases op with
    | resolve => exact like_unless (s := { s with pending := s.pending.erase .resolve }) ⟨rfl, rfl⟩ h
    | tcpConnect =>
      exact like_unless (s := { s with pending := s.pending.erase .tcpConnect }) ⟨rfl, rfl⟩ h
    | handshake => cases ok <;> exact Option.some.inj h ▸ ⟨rfl, rfl⟩
    | write => exact Option.some.inj h ▸ ⟨rfl, rfl⟩
    | read => exact Option.some.inj h ▸ ⟨rfl, rfl⟩
    | close => exact Option.some.inj h ▸ ⟨rfl, rfl⟩

theorem heard_run {tr : List Event} {w : Option Client} (h : (lts.guarded Meets).Run tr w) :
    ∀ s, w = some s → s.Like (heard tr) := by
  induction h with
  | start hi =>
    obtain rfl := hi
    rintro s ⟨⟩
    exact ⟨rfl, rfl⟩
  | @snoc tr w w' e hr hs ih =>
    obtain ⟨-, s, rfl, -, rfl⟩ := hs
    intro s' hs'
    have hstep := like_after (safe_of_meets hr) hs'
    have hbefore := (ih s rfl).hear e
    rw [heard, List.foldl_append]
    exact ⟨hstep.1.trans hbefore.1, hstep.2.trans hbefore.2⟩

/-- **By the history of calls**: every step ends safely exactly if each
meets its condition with the flags that the calls and completions before
it have left. -/
theorem client_safe_iff_heard (tr : List Event) (w : Option Client) :
    (lts.guarded Good).Run tr w ↔
      lts.Run tr w ∧ ∀ before e rest, tr = before ++ e :: rest → (heard before).Meets e := by
  rw [guarded_good_iff]
  constructor
  · intro h
    refine ⟨h.unguarded, ?_⟩
    induction h with
    | start _ => intro before e rest h; simp at h
    | @snoc tr w w' a hr hs ih =>
      obtain ⟨hm, s, rfl, -, -⟩ := hs
      intro before e rest heq
      rcases List.eq_nil_or_concat rest with rfl | ⟨rest', b, rfl⟩
      · obtain ⟨rfl, he⟩ := List.append_inj' heq rfl
        obtain rfl := List.singleton_inj.mp he
        exact ((heard_run hr s rfl).meets a).mp (hm s rfl)
      · refine ih before e rest' ?_
        rw [List.concat_eq_append, ← List.cons_append, ← List.append_assoc] at heq
        exact (List.append_inj' heq rfl).1
  · rintro ⟨h, hall⟩
    induction h with
    | start hi => exact .start hi
    | @snoc tr w w' a hr hs ih =>
      have hguarded := ih fun before e rest heq => hall before e (rest ++ [a]) (by simp [heq])
      refine hguarded.snocGuarded hs ?_
      rintro s rfl
      exact ((heard_run hguarded s rfl).meets a).mpr (hall tr a [] rfl)

theorem run_event {tr : List Event} (h : lts.Run tr (some s)) (e : Event) (he : s.Enabled e) :
    lts.Run (tr ++ [e]) (s.after e) := h.snoc ⟨s, rfl, he, rfl⟩

/-- A client connects, closes and connects again: the second `connect`
dereferences the null pointer. -/
theorem reconnect_crashes : ¬ ∀ (tr : List Event) (w : Option Client), lts.Run tr w → Safe w := by
  intro h
  have hstart : lts.Run [] (some Client.new) := .start rfl
  have hconnected := run_event hstart (.connect ⟨true, true, true⟩) trivial
  have hclosed := run_event hconnected .close trivial
  exact h _ _ (run_event hclosed (.connect ⟨true, true, true⟩) trivial)

end HighJump.Net.WsClient
