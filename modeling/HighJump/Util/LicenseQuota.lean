/-
HighJump.Util.LicenseQuota — `hj::license::issuer` shared by threads, and
what becomes of its quota.

A call takes one from `_valid_times` by a compare-and-swap loop and only
then builds its token, so what fails after the loop has been paid for.
`quota_exact_iff` says that this is the only way to lose any: along every
interleaving, what is left, the tokens handed out and the calls under way
add up to the first quota exactly as long as no call that has passed the
loop fails.

The load and every swap are separate steps. What is done under the mutex
is one step, and so is the write to a stream.
-/
import HighJump.Util.LicenseTheorems
import HighJump.Lib.Lts
import HighJump.Lib.Threads

namespace HighJump.Util.License

open HighJump.Lib

/-! ## The issuer -/

/-- Where a call leaves its token. -/
inductive Target where
  | token
  | stream
  | file
  deriving DecidableEq

/-- A call of one of the `issue` functions. -/
structure Call where
  target : Target
  licensee : String
  validDays : Nat
  claims : List (String × String)

/-- `issuer`. -/
structure Issuer where
  id : String
  algo : SignAlgo
  keys : List String
  validTimes : Nat

/-- What `detail::issue` is called with; the seconds are a `size_t`. -/
def Issuer.request (u : Issuer) (c : Call) (now : Int) : Request where
  issuer := u.id
  licensee := c.licensee
  issueTm := now
  validSecs := c.validDays * 24 * 60 * 60 % 2 ^ 64
  algo := u.algo
  keys := u.keys
  claims := c.claims

/-- `release`. -/
def Issuer.release (u : Issuer) (algo : SignAlgo) (keys : List String) : Outcome Unit × Issuer :=
  if algo = u.algo ∧ keys = u.keys then (.error (.license .keysNotChanged), u)
  else (.ok (), { u with algo := algo, keys := keys })

/-! ## Threads -/

/-- Where a thread is: outside, in the loop with what it last saw, behind
the loop, or with a token still to be written. -/
inductive Pc (τ : Type) where
  | idle
  | looping (c : Call) (oldCount : Nat)
  | passed (c : Call)
  | writing (c : Call) (token : τ)

/-- Whether the call a thread is in has taken from the quota. -/
def Pc.taken {τ : Type} : Pc τ → Nat
  | .idle | .looping _ _ => 0
  | .passed _ | .writing _ _ => 1

/-- A call that has ended: how, and whether it had taken from the quota. -/
structure Answer where
  result : Outcome Unit
  taken : Nat

structure State (ι τ : Type) where
  issuer : Issuer
  pc : ι → Pc τ
  answers : List Answer

/-- What happens: a stream is not good or a file does not open; the count
is loaded; it is zero, is swapped, or the swap fails; the token is built;
the stream takes it or does not; the keys are changed. -/
inductive Event (ι : Type) where
  | reject (i : ι) (c : Call)
  | load (i : ι) (c : Call)
  | refuse (i : ι)
  | swap (i : ι)
  | swapFail (i : ι)
  | build (i : ι) (now : Int)
  | write (i : ι) (good : Bool)
  | setKeys (keys : List String)
  | release (algo : SignAlgo) (keys : List String)

section System

variable {ι τ : Type} [DecidableEq ι]

def State.goto (s : State ι τ) (i : ι) (p : Pc τ) : State ι τ :=
  { s with pc := Function.update s.pc i p }

/-- The call of a thread ends. -/
def State.answer (s : State ι τ) (i : ι) (r : Outcome Unit) : State ι τ :=
  { s.goto i .idle with answers := s.answers ++ [⟨r, (s.pc i).taken⟩] }

variable (J : Jwt) (C : Clock)

/-- One event. -/
def exec (s : State ι J.Token) : Event ι → Option (State ι J.Token)
  | .reject i c =>
      match s.pc i, c.target with
      | .idle, .stream => some (s.answer i (.error (.license .outputStreamInvalid)))
      | .idle, .file => some (s.answer i (.error (.license .fileNotExist)))
      | _, _ => none
  | .load i c =>
      match s.pc i with
      | .idle => some (s.goto i (.looping c s.issuer.validTimes))
      | _ => none
  | .refuse i =>
      match s.pc i with
      | .looping _ 0 => some (s.answer i (.error (.license .invalidTimes)))
      | _ => none
  | .swap i =>
      match s.pc i with
      | .looping c (n + 1) =>
          if s.issuer.validTimes = n + 1 then
            some { s.goto i (.passed c) with issuer := { s.issuer with validTimes := n } }
          else none
      | _ => none
  | .swapFail i =>
      -- `compare_exchange_weak` may fail on equal counts, and loads the present one
      match s.pc i with
      | .looping c (_ + 1) => some (s.goto i (.looping c s.issuer.validTimes))
      | _ => none
  | .build i now =>
      match s.pc i with
      | .passed c =>
          match issue J C (s.issuer.request c now), c.target with
          | .ok _, .token => some (s.answer i (.ok ()))
          | .ok t, _ => some (s.goto i (.writing c t))
          | .error e, _ => some (s.answer i (.error e))
          | .throws, _ => some (s.answer i .throws)
          | .overflow, _ => some (s.answer i .overflow)
      | _ => none
  | .write i good =>
      match s.pc i with
      | .writing _ _ =>
          some (s.answer i (if good then .ok () else .error (.license .outputStreamInvalid)))
      | _ => none
  | .setKeys keys => some { s with issuer := { s.issuer with keys := keys } }
  | .release algo keys => some { s with issuer := (s.issuer.release algo keys).2 }

/-- Threads outside any call, on an issuer. -/
def threads (u : Issuer) : Lts (State ι J.Token) (Event ι) where
  init s := s = ⟨u, fun _ => .idle, []⟩
  step s e s' := exec J C s e = some s'

/-! ## What an event can do -/

/-- A token can be built: the expiry is a time the clock has, there are
keys enough, and they sign. -/
def Buildable (r : Request) : Prop :=
  ∃ expires algorithm token, C.addSecs r.issueTm r.validSecs = some expires ∧
    signer r.algo r.keys = some algorithm ∧ J.sign (r.builder J expires) algorithm = .ok token

/-- No call that has passed the loop fails here. -/
def Succeeds (s : State ι J.Token) : Event ι → Prop
  | .build i now => ∀ c, s.pc i = .passed c → Buildable J C (s.issuer.request c now)
  | .write _ good => good = true
  | _ => True

variable {J C}

theorem issue_ok_iff {r : Request} : (∃ token, issue J C r = .ok token) ↔ Buildable J C r := by
  constructor
  · rintro ⟨token, h⟩
    cases hsign : signer r.algo r.keys with
    | none =>
      unfold issue at h
      rw [hsign] at h
      cases hadd : C.addSecs r.issueTm r.validSecs with
      | none =>
        rw [hadd] at h
        cases h
      | some expires =>
        rw [hadd] at h
        cases h
    | some algorithm =>
      obtain ⟨expires, hadd, hs⟩ := issue_ok h hsign
      exact ⟨expires, algorithm, token, hadd, hsign, hs⟩
  · rintro ⟨expires, algorithm, token, hadd, hsign, hs⟩
    exact ⟨token, (issue_eq hadd hsign).trans hs⟩

/-- Building a token gives it to the caller, keeps it for the stream, or
fails; it fails exactly where the guard does not hold. -/
theorem build_cases {s s' : State ι J.Token} {i : ι} {now : Int}
    (h : exec J C s (.build i now) = some s') :
    (∃ p, p.taken = (s.pc i).taken ∧ s' = s.goto i p ∧ Succeeds J C s (.build i now)) ∨
    ∃ r, (s.pc i).taken = 1 ∧ s' = s.answer i r ∧
      (r = .ok () ↔ Succeeds J C s (.build i now)) := by
  simp only [exec] at h
  split at h
  next c hpc =>
    -- the guard is about the one call that can be meant
    have hguard : Succeeds J C s (.build i now) ↔
        ∃ token, issue J C (s.issuer.request c now) = .ok token := by
      rw [issue_ok_iff]
      refine ⟨fun hs => hs c hpc, fun hb c' hc' => ?_⟩
      rw [hpc] at hc'
      cases hc'
      exact hb
    have htaken : (s.pc i).taken = 1 := by
      rw [hpc]
      rfl
    split at h
    next token hi _ =>
      refine .inr ⟨_, htaken, (Option.some.inj h).symm, ?_⟩
      exact ⟨fun _ => hguard.mpr ⟨token, hi⟩, fun _ => rfl⟩
    next token hi _ =>
      refine .inl ⟨_, ?_, (Option.some.inj h).symm, hguard.mpr ⟨token, hi⟩⟩
      rw [htaken]
      rfl
    all_goals
      next hi =>
        refine .inr ⟨_, htaken, (Option.some.inj h).symm, nofun, ?_⟩
        intro hs
        obtain ⟨token, ht⟩ := hguard.mp hs
        rw [hi] at ht
        cases ht
  next => cases h

/-- The five kinds of step: a thread moves without touching the quota, a
swap succeeds, a call that has taken nothing fails, a call that has taken
one ends, or the keys change. -/
theorem exec_cases {s s' : State ι J.Token} {e : Event ι} (h : exec J C s e = some s') :
    (∃ i p, p.taken = (s.pc i).taken ∧ s' = s.goto i p ∧ Succeeds J C s e) ∨
    (∃ i c n, s.pc i = .looping c (n + 1) ∧ s.issuer.validTimes = n + 1 ∧
      s' = { s.goto i (.passed c) with issuer := { s.issuer with validTimes := n } } ∧
      Succeeds J C s e) ∨
    (∃ i r, (s.pc i).taken = 0 ∧ r ≠ .ok () ∧ s' = s.answer i r ∧ Succeeds J C s e) ∨
    (∃ i r, (s.pc i).taken = 1 ∧ s' = s.answer i r ∧ (r = .ok () ↔ Succeeds J C s e)) ∨
    ∃ u, u.validTimes = s.issuer.validTimes ∧ s' = { s with issuer := u } ∧ Succeeds J C s e := by
  cases e with
  | reject i c =>
    refine .inr (.inr (.inl ?_))
    simp only [exec] at h
    split at h
    next hpc _ =>
      refine ⟨i, _, ?_, ?_, (Option.some.inj h).symm, trivial⟩
      · rw [hpc]
        rfl
      · exact nofun
    next hpc _ =>
      refine ⟨i, _, ?_, ?_, (Option.some.inj h).symm, trivial⟩
      · rw [hpc]
        rfl
      · exact nofun
    next => cases h
  | load i c =>
    refine .inl ?_
    simp only [exec] at h
    split at h
    next hpc => exact ⟨i, _, by rw [hpc]; rfl, (Option.some.inj h).symm, trivial⟩
    next => cases h
  | refuse i =>
    refine .inr (.inr (.inl ?_))
    simp only [exec] at h
    split at h
    next hpc =>
      refine ⟨i, _, ?_, ?_, (Option.some.inj h).symm, trivial⟩
      · rw [hpc]
        rfl
      · exact nofun
    next => cases h
  | swap i =>
    refine .inr (.inl ?_)
    simp only [exec] at h
    split at h
    next c n hpc =>
      split at h
      next hn => exact ⟨i, c, n, hpc, hn, (Option.some.inj h).symm, trivial⟩
      next => cases h
    next => cases h
  | swapFail i =>
    refine .inl ?_
    simp only [exec] at h
    split at h
    next hpc => exact ⟨i, _, by rw [hpc]; rfl, (Option.some.inj h).symm, trivial⟩
    next => cases h
  | build i now =>
    rcases build_cases h with ⟨p, hp, hs', hok⟩ | ⟨r, htaken, hs', hok⟩
    · exact .inl ⟨i, p, hp, hs', hok⟩
    · exact .inr (.inr (.inr (.inl ⟨i, r, htaken, hs', hok⟩)))
  | write i good =>
    simp only [exec] at h
    split at h
    next c token hpc =>
      refine .inr (.inr (.inr (.inl ⟨i, _, ?_, (Option.some.inj h).symm, ?_⟩)))
      · rw [hpc]
        rfl
      · cases good with
        | true => exact ⟨fun _ => rfl, fun _ => rfl⟩
        | false => exact ⟨nofun, nofun⟩
    next => cases h
  | setKeys keys =>
    refine .inr (.inr (.inr (.inr ⟨_, ?_, (Option.some.inj h).symm, trivial⟩)))
    rfl
  | release algo keys =>
    refine .inr (.inr (.inr (.inr ⟨_, ?_, (Option.some.inj h).symm, trivial⟩)))
    unfold Issuer.release
    split <;> rfl

/-! ## The account -/

/-- How many calls have returned with a token. -/
def State.issued (s : State ι τ) : Nat := s.answers.countP fun a => decide (a.result = .ok ())

theorem State.issued_answer (s : State ι τ) (i : ι) (r : Outcome Unit) :
    (s.answer i r).issued = s.issued + if r = .ok () then 1 else 0 := by
  simp only [State.issued, State.answer, List.countP_append, List.countP_singleton,
    decide_eq_true_eq]

variable [Fintype ι]

/-- How many calls are under way behind the loop. -/
def State.underway (s : State ι τ) : Nat := ∑ i, (s.pc i).taken

def State.amount (s : State ι τ) : Nat := s.issuer.validTimes + s.issued + s.underway

theorem State.underway_goto (s : State ι τ) (i : ι) (p : Pc τ) :
    (s.goto i p).underway + (s.pc i).taken = s.underway + p.taken :=
  sum_weight_update Pc.taken s.pc i p

theorem State.underway_answer (s : State ι τ) (i : ι) (r : Outcome Unit) :
    (s.answer i r).underway + (s.pc i).taken = s.underway :=
  s.underway_goto i .idle

/-- A call that ends pays back nothing; with a token, it is counted. -/
theorem State.amount_answer (s : State ι τ) (i : ι) (r : Outcome Unit) :
    (s.answer i r).amount + (s.pc i).taken = s.amount + if r = .ok () then 1 else 0 := by
  have hu := s.underway_answer i r
  have hi := s.issued_answer i r
  have hv : (s.answer i r).issuer.validTimes = s.issuer.validTimes := rfl
  unfold State.amount
  omega

/-- **One step**: the account is kept, or a call that has taken one has
failed and one is gone. -/
theorem exec_amount {s s' : State ι J.Token} {e : Event ι} (h : exec J C s e = some s') :
    (Succeeds J C s e → s'.amount = s.amount) ∧ (¬ Succeeds J C s e → s'.amount < s.amount) := by
  obtain ⟨i, p, hp, rfl, hs⟩ | ⟨i, c, n, hpc, hn, rfl, hs⟩ | ⟨i, r, htaken, hr, rfl, hs⟩ |
    ⟨i, r, htaken, rfl, hs⟩ | ⟨u, hu, rfl, hs⟩ := exec_cases h
  · refine ⟨fun _ => ?_, fun hf => absurd hs hf⟩
    have hg := s.underway_goto i p
    have hk : (s.goto i p).issuer.validTimes + (s.goto i p).issued
        = s.issuer.validTimes + s.issued := rfl
    unfold State.amount
    omega
  · refine ⟨fun _ => ?_, fun hf => absurd hs hf⟩
    have hg := s.underway_goto i (.passed c)
    rw [hpc] at hg
    have hone : (s.goto i (.passed c)).underway = s.underway + 1 := hg
    change n + s.issued + (s.goto i (.passed c)).underway = s.amount
    unfold State.amount
    omega
  · refine ⟨fun _ => ?_, fun hf => absurd hs hf⟩
    have ha := s.amount_answer i r
    rw [if_neg hr] at ha
    omega
  · have ha := s.amount_answer i r
    refine ⟨fun hp => ?_, fun hf => ?_⟩
    · rw [if_pos (hs.mpr hp)] at ha
      omega
    · rw [if_neg fun hr => hf (hs.mp hr)] at ha
      omega
  · refine ⟨fun _ => ?_, fun hf => absurd hs hf⟩
    change u.validTimes + s.issued + s.underway = s.amount
    rw [hu]
    rfl

omit [Fintype ι] in
/-- Where no call behind the loop fails, a call that failed has taken
nothing. -/
theorem guarded_untaken {u : Issuer} {tr : List (Event ι)} {s : State ι J.Token}
    (h : ((threads J C u).guarded (Succeeds J C)).Run tr s) :
    ∀ a ∈ s.answers, a.result ≠ .ok () → a.taken = 0 := by
  refine Lts.Reachable.invariant (M := (threads J C u).guarded (Succeeds J C))
    (I := fun s => ∀ a ∈ s.answers, a.result ≠ .ok () → a.taken = 0) (fun s hs => ?_)
    (fun s e s' hi hstep => ?_) ⟨tr, h⟩
  · cases hs
    exact nofun
  · obtain ⟨hok, hstep⟩ := hstep
    have hanswer : ∀ i r, (r ≠ .ok () → (s.pc i).taken = 0) →
        ∀ a ∈ (s.answer i r).answers, a.result ≠ .ok () → a.taken = 0 := by
      intro i r hr a ha hne
      rcases List.mem_append.mp ha with ha | ha
      · exact hi a ha hne
      · rw [List.mem_singleton.mp ha] at hne ⊢
        exact hr hne
    obtain ⟨i, p, -, rfl, -⟩ | ⟨i, c, n, -, -, rfl, -⟩ | ⟨i, r, htaken, -, rfl, -⟩ |
      ⟨i, r, -, rfl, hs⟩ | ⟨u, -, rfl, -⟩ := exec_cases hstep
    · exact hi
    · exact hi
    · exact hanswer i r fun _ => htaken
    · exact hanswer i r fun hr => absurd (hs.mpr hok) hr
    · exact hi

/-- What was promised of a quota of `n`: what is left, the tokens handed
out and the calls under way add up to it, and no failed call has taken
from it. -/
structure ExactQuota (n : Nat) (s : State ι τ) : Prop where
  account : s.issuer.validTimes + s.issued + s.underway = n
  untaken : ∀ a ∈ s.answers, a.result ≠ .ok () → a.taken = 0

/-- **The quota.** In every interleaving of calls by any threads, no more
tokens are handed out than the quota allows; and the quota is exact in the
state reached exactly if no call failed behind the loop on the way. -/
theorem quota_exact_iff {u : Issuer} {tr : List (Event ι)} {s : State ι J.Token}
    (h : (threads J C u).Run tr s) :
    s.issued ≤ u.validTimes ∧
    (ExactQuota u.validTimes s ↔ ((threads J C u).guarded (Succeeds J C)).Run tr s) := by
  have hstart : ∀ s : State ι J.Token, (threads J C u).init s → s.amount = u.validTimes := by
    intro s hs
    cases hs
    simp [State.amount, State.issued, State.underway, Pc.taken]
  obtain ⟨hle, hiff⟩ := h.amount_eq_iff_guarded hstart
    (fun s e s' hs => (exec_amount hs).1) (fun s e s' hs => (exec_amount hs).2)
  refine ⟨?_, fun hq => hiff.mp hq.account, fun hg => ⟨hiff.mpr hg, guarded_untaken hg⟩⟩
  unfold State.amount at hle
  omega

end System

/-! ## The last license -/

section LastOne

variable {ι : Type} [DecidableEq ι] {J : Jwt} {C : Clock} {s : State ι J.Token} {i : ι} {c : Call}
  {now : Int}

theorem exec_build (hpc : s.pc i = .passed c) (htarget : c.target = .token) {token : J.Token}
    (hi : issue J C (s.issuer.request c now) = .ok token) :
    exec J C s (.build i now) = some (s.answer i (.ok ())) := by
  simp only [exec, hpc, hi, htarget]

theorem exec_build_error (hpc : s.pc i = .passed c) {e : Err}
    (hi : issue J C (s.issuer.request c now) = .error e) :
    exec J C s (.build i now) = some (s.answer i (.error e)) := by
  simp only [exec, hpc, hi]

end LastOne

/-- The issuer of the tests with one license left and no keys. -/
def lastOne (algo : SignAlgo) : Issuer := ⟨"issuer1", algo, [], 1⟩

def harry : Call := ⟨.token, "harry", 30, [("disk_sn", "S1")]⟩

/-- Unsigned, two threads want it: one gets it, the other fails and has
taken nothing. -/
theorem last_license_exact :
    ∃ s : State Bool String, ExactQuota 1 s ∧ s.issued = 1 ∧ s.answers.length = 2 := by
  let J := tableJwt nanos licenses
  let M : Lts (State Bool String) (Event Bool) := threads J nanos (lastOne .none)
  let G := M.guarded (Succeeds J nanos)
  let s₀ : State Bool String := ⟨lastOne .none, fun _ => .idle, []⟩
  let s₁ := s₀.goto true (.looping harry 1)
  let s₂ := s₁.goto false (.looping harry 1)
  let s₃ : State Bool String := { s₂.goto true (.passed harry) with
    issuer := { s₂.issuer with validTimes := 0 } }
  let s₄ := s₃.goto false (.looping harry 0)
  let s₅ := s₄.answer false (.error (.license .invalidTimes))
  let s₆ := s₅.answer true (.ok ())
  have h₁ : G.Run [.load true harry] s₁ := (Lts.Run.start rfl : G.Run [] s₀).snocGuarded rfl trivial
  have h₂ : G.Run [.load true harry, .load false harry] s₂ := h₁.snocGuarded rfl trivial
  have h₃ : G.Run [.load true harry, .load false harry, .swap true] s₃ :=
    h₂.snocGuarded rfl trivial
  have h₄ : G.Run [.load true harry, .load false harry, .swap true, .swapFail false] s₄ :=
    h₃.snocGuarded rfl trivial
  have h₅ : G.Run [.load true harry, .load false harry, .swap true, .swapFail false,
      .refuse false] s₅ := h₄.snocGuarded rfl trivial
  have hpc : s₅.pc true = .passed harry := rfl
  obtain ⟨token, -, hsign, -⟩ := matching_monthly addSecs_monthly
  have hrequest : s₅.issuer.request harry monthly.issueTm = monthly := rfl
  have hguard : Succeeds J nanos s₅ (.build true monthly.issueTm) := by
    intro c hc
    rw [hpc] at hc
    cases hc
    rw [hrequest]
    exact ⟨_, .none, token, addSecs_monthly, rfl, hsign⟩
  have hissue : issue J nanos (s₅.issuer.request harry monthly.issueTm) = .ok token := by
    rw [hrequest]
    exact (issue_eq addSecs_monthly rfl).trans hsign
  have hbuild : M.step s₅ (.build true monthly.issueTm) s₆ := exec_build hpc rfl hissue
  have h₆ : G.Run [.load true harry, .load false harry, .swap true, .swapFail false,
      .refuse false, .build true monthly.issueTm] s₆ := h₅.snocGuarded hbuild hguard
  exact ⟨s₆, (quota_exact_iff h₆.unguarded).2.mpr h₆, rfl, rfl⟩

/-- **A failed call uses it up.** Signed, without the keys: one call takes
the last license, fails for want of keys, and nothing is left. -/
theorem last_license_lost :
    ∃ (tr : List (Event Bool)) (s : State Bool String),
      (threads (tableJwt nanos licenses) nanos (lastOne .rsa256)).Run tr s ∧
      s.answers.map Answer.result = [.error (.license .keysNotEnough)] ∧
      s.issuer.validTimes = 0 ∧ s.issued = 0 ∧ s.underway = 0 ∧ ¬ ExactQuota 1 s := by
  let J := tableJwt nanos licenses
  let M : Lts (State Bool String) (Event Bool) := threads J nanos (lastOne .rsa256)
  let s₀ : State Bool String := ⟨lastOne .rsa256, fun _ => .idle, []⟩
  let s₁ := s₀.goto true (.looping harry 1)
  let s₂ : State Bool String := { s₁.goto true (.passed harry) with
    issuer := { s₁.issuer with validTimes := 0 } }
  let s₃ := s₂.answer true (.error (.license .keysNotEnough))
  have h₁ : M.Run [.load true harry] s₁ := (Lts.Run.start rfl : M.Run [] s₀).snoc rfl
  have h₂ : M.Run [.load true harry, .swap true] s₂ := h₁.snoc rfl
  have hissue : issue J nanos (s₂.issuer.request harry monthly.issueTm)
      = .error (.license .keysNotEnough) := by
    unfold issue
    rw [show nanos.addSecs (s₂.issuer.request harry monthly.issueTm).issueTm
      (s₂.issuer.request harry monthly.issueTm).validSecs = _ from addSecs_monthly]
    rfl
  have hbuild : M.step s₂ (.build true monthly.issueTm) s₃ := exec_build_error rfl hissue
  refine ⟨_, s₃, h₂.snoc hbuild, rfl, rfl, rfl, rfl, fun hq => ?_⟩
  exact absurd hq.account (by decide)

end HighJump.Util.License
