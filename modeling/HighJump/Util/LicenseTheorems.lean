/-
HighJump.Util.LicenseTheorems — when an issued license says what it was
issued for, and verifies.

The caller's claims are set after the issuer, the audience and the dates,
in the same payload. A claim named like one of these takes its place, a
second claim of a name takes the first one's. `honoured_iff` says exactly
which requests that spoils; every other one gives a token that carries its
fields and passes, from its issue to its expiry, with any part of its
claims.
-/
import HighJump.Util.License

namespace HighJump.Util.License

open HighJump.Lib

/-! ## Dates -/

section Dates

variable (C : Clock)

/-- Whole seconds are less than one second off. -/
theorem Clock.date_seconds (t : Int) :
    t - C.ticks < C.date (C.seconds t) ∧ C.date (C.seconds t) < t + C.ticks := by
  have hpos : (0 : Int) < C.ticks := Int.natCast_pos.mpr C.pos
  have heq := Int.tdiv_mul_add_tmod t C.ticks
  have hlt := Int.tmod_lt_of_pos t hpos
  have hgt := Int.lt_tmod_of_pos t hpos
  unfold Clock.date Clock.seconds
  omega

theorem Clock.date_mono {m n : Int} (h : m ≤ n) : C.date m ≤ C.date n :=
  Int.mul_le_mul_of_nonneg_right h (Int.natCast_nonneg _)

theorem Clock.date_seconds_mono {s t : Int} (h : s ≤ t) :
    C.date (C.seconds s) ≤ C.date (C.seconds t) :=
  C.date_mono (Int.tdiv_le_tdiv (Int.natCast_pos.mpr C.pos) h)

theorem Clock.date_leeway : C.date defaultLeeway = 5 * C.ticks := rfl

theorem notExpired_int {now n : Int} : NotExpired C defaultLeeway now (some (.int n)) ↔
    rep.Mem (C.date n) ∧ rep.Mem (C.date defaultLeeway) ∧
      rep.Mem (C.date n + C.date defaultLeeway) ∧ now ≤ C.date n + C.date defaultLeeway := by
  have hcount : durationCount defaultLeeway = defaultLeeway := by decide
  rw [← hcount]
  rfl

theorem begun_int {now n : Int} : Begun C defaultLeeway now (some (.int n)) ↔
    rep.Mem (C.date n) ∧ rep.Mem (C.date defaultLeeway) ∧
      rep.Mem (C.date n - C.date defaultLeeway) ∧ C.date n - C.date defaultLeeway ≤ now := by
  have hcount : durationCount defaultLeeway = defaultLeeway := by decide
  rw [← hcount]
  rfl

/-- The validity in ticks and both dates with their leeway are times the
clock has. -/
structure Clock.Fits (issueTm : Int) (validSecs : Nat) : Prop where
  valid : C.date validSecs ≤ rep.max
  issued : rep.min ≤ C.date (C.seconds issueTm) - C.date defaultLeeway
  expires : C.date (C.seconds (issueTm + C.date validSecs)) + C.date defaultLeeway ≤ rep.max

variable {C}

theorem Clock.date_nonneg (n : Nat) : 0 ≤ C.date n :=
  Int.mul_nonneg (Int.natCast_nonneg _) (Int.natCast_nonneg _)

/-- A count whose ticks fit is kept by the conversion. -/
theorem Clock.durationCount_eq {n : Nat} (h : C.date n ≤ rep.max) : durationCount n = n := by
  have hmax : rep.max = 2 ^ 63 - 1 := rfl
  have hone : (1 : Int) ≤ C.ticks := Int.natCast_pos.mpr C.pos
  have hle : (n : Int) * 1 ≤ C.date n := Int.mul_le_mul_of_nonneg_left hone (Int.natCast_nonneg n)
  rw [durationCount, if_pos (by omega)]

/-- What fits is added without overflow. -/
theorem Clock.Fits.addSecs {tm : Int} {n : Nat} (h : C.Fits tm n) :
    C.addSecs tm n = some (tm + C.date n) := by
  have hticks : (0 : Int) < C.ticks := Int.natCast_pos.mpr C.pos
  have hn := Clock.date_nonneg (C := C) n
  have htm := C.date_seconds tm
  have hexp := C.date_seconds (tm + C.date n)
  have hlo := h.issued
  have hhi := h.expires
  have hmin : rep.min ≤ 0 := by decide
  rw [C.date_leeway] at hlo hhi
  unfold Clock.addSecs
  rw [Clock.durationCount_eq h.valid]
  refine if_pos ⟨⟨?_, h.valid⟩, ⟨?_, ?_⟩⟩
  · exact Int.le_trans hmin hn
  · change rep.min ≤ tm + C.date n
    omega
  · change tm + C.date n ≤ rep.max
    omega

/-- The leeway is time the clock has: it stands on both sides. -/
theorem Clock.Fits.leeway {tm : Int} {n : Nat} (h : C.Fits tm n) :
    rep.Mem (C.date defaultLeeway) := by
  have hmono := C.date_seconds_mono
    (Int.le_add_of_nonneg_right (a := tm) (Clock.date_nonneg (C := C) n))
  have hissued := h.issued
  have hexpires := h.expires
  have hmin : rep.min = -2 ^ 63 := rfl
  have hmax : rep.max = 2 ^ 63 - 1 := rfl
  have hpos := Clock.date_nonneg (C := C) defaultLeeway
  constructor <;> omega

/-- The expiry passes until it comes: the second it is cut down by is
within the leeway. -/
theorem Clock.Fits.notExpired {tm now : Int} {n : Nat} (h : C.Fits tm n) (hlo : tm ≤ now)
    (hhi : now ≤ tm + C.date n) :
    NotExpired C defaultLeeway now (some (.int (C.seconds (tm + C.date n)))) := by
  have hticks : (0 : Int) < C.ticks := Int.natCast_pos.mpr C.pos
  have hleeway := C.date_leeway
  have hexp := C.date_seconds (tm + C.date n)
  have hmono := C.date_seconds_mono (Int.le_trans hlo hhi)
  have hissued := h.issued
  have hexpires := h.expires
  refine (notExpired_int C).mpr ⟨⟨?_, ?_⟩, h.leeway, ⟨?_, hexpires⟩, ?_⟩ <;> omega

/-- The issue passes from then on. -/
theorem Clock.Fits.begun {tm now : Int} {n : Nat} (h : C.Fits tm n) (hlo : tm ≤ now)
    (hhi : now ≤ tm + C.date n) : Begun C defaultLeeway now (some (.int (C.seconds tm))) := by
  have hticks : (0 : Int) < C.ticks := Int.natCast_pos.mpr C.pos
  have hleeway := C.date_leeway
  have htm := C.date_seconds tm
  have hmono := C.date_seconds_mono (Int.le_trans hlo hhi)
  have hissued := h.issued
  have hexpires := h.expires
  refine (begun_int C).mpr ⟨⟨?_, ?_⟩, h.leeway, ⟨hissued, ?_⟩, ?_⟩ <;> omega

/-- A sum with the right seconds is the right sum: what the conversion
takes off is 2^64 seconds. -/
theorem Clock.addSecs_exact {tm e : Int} {n : Nat} (h : C.addSecs tm n = some e)
    (hs : C.seconds e = C.seconds (tm + C.date n)) : e = tm + C.date n ∧ C.date n ≤ rep.max := by
  simp only [Clock.addSecs] at h
  split at h
  next hmem =>
    cases h
    have hcount : durationCount n = n := by
      rw [durationCount] at hs ⊢
      split at hs
      next hn => exact if_pos hn
      next =>
        -- equal seconds are less than two seconds apart
        have hpos : (0 : Int) < C.ticks := Int.natCast_pos.mpr C.pos
        have hone := C.date_seconds (tm + (n - 2 ^ 64) * C.ticks)
        have htwo := C.date_seconds (tm + C.date n)
        have hsub : ((n : Int) - 2 ^ 64) * C.ticks = C.date n - 2 ^ 64 * C.ticks := Int.sub_mul ..
        rw [hs, hsub] at hone
        omega
    rw [hcount] at hmem ⊢
    exact ⟨rfl, hmem.1.2⟩
  next => cases h

end Dates

/-! ## Contents -/

/-- The claims of a list, set in order. -/
def Content.setAll (c : Content) (claims : List (String × String)) : Content :=
  claims.foldl (fun c p => c.set p.1 (.str p.2)) c

/-- What a token of a request says. -/
def Request.content (C : Clock) (r : Request) (expires : Int) : Content :=
  ((((Content.mk (some jwtType) fun _ => none).set "iss" (.str r.issuer)).set "aud"
    (.str r.licensee)).set "iat" (.int (C.seconds r.issueTm))).set "exp" (.int (C.seconds expires))
    |>.setAll r.claims

theorem Content.set_claims (c : Content) (name : String) (v : Claim) (k : String) :
    (c.set name v).claims k = if k = name then some v else c.claims k :=
  Function.update_apply _ _ _ _

theorem Content.setAll_typ (claims : List (String × String)) :
    ∀ c : Content, (c.setAll claims).typ = c.typ := by
  induction claims with
  | nil => exact fun _ => rfl
  | cons p ps ih => exact fun c => ih (c.set p.1 (.str p.2))

/-- A name has what it had, or the value of a claim that has it. -/
theorem Content.setAll_claims (claims : List (String × String)) (k : String) : ∀ c : Content,
    ((∀ p ∈ claims, p.1 ≠ k) ∧ (c.setAll claims).claims k = c.claims k) ∨
    ∃ p ∈ claims, p.1 = k ∧ (c.setAll claims).claims k = some (.str p.2) := by
  induction claims with
  | nil => exact fun c => .inl ⟨by simp, rfl⟩
  | cons p ps ih =>
    intro c
    rcases ih (c.set p.1 (.str p.2)) with ⟨hnot, heq⟩ | ⟨q, hq, hk, heq⟩
    · rw [Content.set_claims] at heq
      by_cases hp : k = p.1
      · rw [if_pos hp] at heq
        exact .inr ⟨p, List.mem_cons_self, hp.symm, heq⟩
      · rw [if_neg hp] at heq
        exact .inl ⟨List.forall_mem_cons.mpr ⟨Ne.symm hp, hnot⟩, heq⟩
    · exact .inr ⟨q, List.mem_cons_of_mem _ hq, hk, heq⟩

/-- The builder holds the content of the request. -/
theorem Jwt.Documented.content_builder {J : Jwt} {C : Clock} (hJ : J.Documented C) (r : Request)
    (expires : Int) : J.content (r.builder J expires) = r.content C expires := by
  have hfold : ∀ (ps : List (String × String)) (b : J.Builder),
      J.content (ps.foldl (fun lic p => J.setPayloadClaim lic p.1 (.str p.2)) b)
        = (J.content b).setAll ps := by
    intro ps
    induction ps with
    | nil => exact fun _ => rfl
    | cons p ps ih =>
      intro b
      rw [List.foldl_cons, ih, hJ.setPayloadClaim]
      rfl
  unfold Request.builder
  rw [hfold, hJ.setExpiresAt, hJ.setIssuedAt, hJ.setAudience, hJ.setIssuer, hJ.setType, hJ.create]
  rfl

section Content

variable {C : Clock} {r : Request} {expires : Int}

/-- A name no claim has. -/
theorem Request.content_of_not_mem {k : String} (h : ∀ p ∈ r.claims, p.1 ≠ k) :
    (r.content C expires).claims k =
      if k = "exp" then some (.int (C.seconds expires))
      else if k = "iat" then some (.int (C.seconds r.issueTm))
      else if k = "aud" then some (.str r.licensee)
      else if k = "iss" then some (.str r.issuer) else none := by
  rcases Content.setAll_claims r.claims k _ with ⟨-, heq⟩ | ⟨p, hp, hk, -⟩
  · refine heq.trans ?_
    simp only [Content.set_claims]
  · exact absurd hk (h p hp)

/-- A name some claim has. -/
theorem Request.content_of_mem {p : String × String} (hp : p ∈ r.claims) :
    ∃ q ∈ r.claims, q.1 = p.1 ∧ (r.content C expires).claims p.1 = some (.str q.2) := by
  rcases Content.setAll_claims r.claims p.1 _ with ⟨hnot, -⟩ | hmem
  · exact absurd rfl (hnot p hp)
  · exact hmem

end Content

/-! ## Issuing and verifying -/

theorem checkClaims_ok_iff {c : Content} {claims : List (String × String)} :
    checkClaims c claims = .ok () ↔ ∀ p ∈ claims, c.claims p.1 = some (.str p.2) := by
  induction claims with
  | nil => simp [checkClaims]
  | cons p ps ih =>
    obtain ⟨name, value⟩ := p
    rw [List.forall_mem_cons, ← ih, checkClaims]
    cases hc : c.claims name with
    | none => simp
    | some v =>
      cases v with
      | str s =>
        by_cases hs : s = value
        · simp [hs]
        · simp [hs]
      | int n => simp
      | number n => simp
      | array texts => simp
      | other => simp

/-- Keys that match: what is signed with the one verifies with the other
and decodes to what was signed. -/
def Matching (J : Jwt) (sign verify : Algorithm) (b : J.Builder) : Prop :=
  ∃ token decoded, J.sign b sign = .ok token ∧ J.decode token = .ok decoded ∧
    J.read decoded = J.content b ∧ J.signed verify decoded

/-- The token says what the arguments say. -/
structure Carries (C : Clock) (r : Request) (c : Content) : Prop where
  issuer : c.claims "iss" = some (.str r.issuer)
  audience : c.claims "aud" = some (.str r.licensee)
  issuedAt : c.claims "iat" = some (.int (C.seconds r.issueTm))
  expiresAt : c.claims "exp" = some (.int (C.seconds (r.issueTm + C.date r.validSecs)))

/-- The request gives a token that carries its fields and verifies, with
any part of its claims, at any time of its validity. -/
def Honoured (J : Jwt) (C : Clock) (r : Request) (verifyKeys : List String) : Prop :=
  ∃ token decoded, issue J C r = .ok token ∧ J.decode token = .ok decoded ∧
    Carries C r (J.read decoded) ∧
    ∀ claims, claims.Sublist r.claims → ∀ now, r.issueTm ≤ now →
      now ≤ r.issueTm + C.date r.validSecs →
      verify J token r.issuer r.licensee r.algo verifyKeys claims defaultLeeway now = .ok ()

/-- The claims leave the dates alone, repeat the issuer and the licensee
where they name them, and give no name two values. -/
structure Compatible (r : Request) : Prop where
  dates : ∀ p ∈ r.claims, p.1 ≠ "exp" ∧ p.1 ≠ "iat" ∧ p.1 ≠ "nbf"
  issuer : ∀ p ∈ r.claims, p.1 = "iss" → p.2 = r.issuer
  audience : ∀ p ∈ r.claims, p.1 = "aud" → p.2 = r.licensee
  single : ∀ p ∈ r.claims, ∀ q ∈ r.claims, p.1 = q.1 → p.2 = q.2

section Honoured

variable {J : Jwt} {C : Clock} {r : Request} {verifyKeys : List String} {sign check : Algorithm}

/-- `detail::verify` passes a token its verifier passes and whose claims
have the values asked for. -/
theorem Jwt.Documented.verify_ok_iff (hJ : J.Documented C) {token : J.Token}
    {decoded : J.Decoded} (hdecode : J.decode token = .ok decoded) {issuer licensee : String}
    {algo : SignAlgo} (hcheck : checker algo verifyKeys = some check)
    {claims : List (String × String)} {leeway : Nat} {now : Int} :
    License.verify J token issuer licensee algo verifyKeys claims leeway now = .ok () ↔
      J.signed check decoded ∧
      Accepts C ⟨jwtType, issuer, licensee, leeway, check⟩ now (J.read decoded) ∧
      ∀ p ∈ claims, (J.read decoded).claims p.1 = some (.str p.2) := by
  have hv := hJ.verify ⟨jwtType, issuer, licensee, leeway, check⟩ now decoded
  rw [← and_assoc, ← hv, ← checkClaims_ok_iff, License.verify]
  simp only [hdecode, hcheck]
  cases J.verify ⟨jwtType, issuer, licensee, leeway, check⟩ now decoded with
  | ok u => simp
  | error e => simp
  | throws => simp
  | overflow => simp

/-- A time within the clock and keys enough: what is left is signing. -/
theorem issue_eq {expires : Int} (hadd : C.addSecs r.issueTm r.validSecs = some expires)
    (hsign : signer r.algo r.keys = some sign) :
    issue J C r = J.sign (r.builder J expires) sign := by
  unfold issue
  rw [hadd, hsign]

theorem issue_ok {token : J.Token} (h : issue J C r = .ok token)
    (hsign : signer r.algo r.keys = some sign) :
    ∃ expires, C.addSecs r.issueTm r.validSecs = some expires ∧
      J.sign (r.builder J expires) sign = .ok token := by
  cases hadd : C.addSecs r.issueTm r.validSecs with
  | none =>
    unfold issue at h
    rw [hadd] at h
    cases h
  | some expires => exact ⟨expires, rfl, (issue_eq hadd hsign).symm.trans h⟩

/-- The content of a compatible request. -/
theorem Compatible.content (h : Compatible r) (expires : Int) :
    let c := r.content C expires
    c.claims "iss" = some (.str r.issuer) ∧ c.claims "aud" = some (.str r.licensee) ∧
    c.claims "iat" = some (.int (C.seconds r.issueTm)) ∧
    c.claims "exp" = some (.int (C.seconds expires)) ∧ c.claims "nbf" = none ∧
    ∀ p ∈ r.claims, c.claims p.1 = some (.str p.2) := by
  have hmem : ∀ p ∈ r.claims, (r.content C expires).claims p.1 = some (.str p.2) := by
    intro p hp
    obtain ⟨q, hq, hname, heq⟩ : ∃ q ∈ r.claims, q.1 = p.1 ∧
        (r.content C expires).claims p.1 = some (.str q.2) := Request.content_of_mem hp
    rw [heq, h.single q hq p hp hname]
  -- a field keeps its value where no claim has its name, and where the claims that do repeat it
  have hfield : ∀ k v, (∀ p ∈ r.claims, p.1 = k → p.2 = v) →
      ((∀ p ∈ r.claims, p.1 ≠ k) → (r.content C expires).claims k = some (.str v)) →
      (r.content C expires).claims k = some (.str v) := by
    intro k v hall hnone
    by_cases hk : ∃ p ∈ r.claims, p.1 = k
    · obtain ⟨p, hp, hpk⟩ := hk
      have heq := hmem p hp
      rwa [hpk, hall p hp hpk] at heq
    · exact hnone fun p hp hpk => hk ⟨p, hp, hpk⟩
  refine ⟨hfield "iss" _ h.issuer fun hk => ?_, hfield "aud" _ h.audience fun hk => ?_, ?_, ?_, ?_,
    hmem⟩
  · exact Request.content_of_not_mem hk
  · exact Request.content_of_not_mem hk
  · exact Request.content_of_not_mem fun p hp => (h.dates p hp).2.1
  · exact Request.content_of_not_mem fun p hp => (h.dates p hp).1
  · exact Request.content_of_not_mem fun p hp => (h.dates p hp).2.2

/-- A compatible request whose dates fit is accepted, from its issue to
its expiry. -/
theorem Compatible.accepts (h : Compatible r) (hfit : C.Fits r.issueTm r.validSecs) {now : Int}
    (hlo : r.issueTm ≤ now) (hhi : now ≤ r.issueTm + C.date r.validSecs) :
    Accepts C ⟨jwtType, r.issuer, r.licensee, defaultLeeway, check⟩ now
      (r.content C (r.issueTm + C.date r.validSecs)) := by
  obtain ⟨hiss, haud, hiat, hexp, hnbf, -⟩ :=
    h.content (C := C) (r.issueTm + C.date r.validSecs)
  refine ⟨?_, hiss, ?_, ?_, ?_, ?_⟩
  · rw [Request.content, Content.setAll_typ]
    rfl
  · rw [haud]
    rfl
  · rw [hexp]
    exact hfit.notExpired hlo hhi
  · rw [hiat]
    exact hfit.begun hlo hhi
  · rw [hnbf]
    trivial

/-- Where every claim is the last of its name, the fields are what the
arguments say and the verifier passes them, the request is compatible. -/
theorem Carries.compatible {c : Content} (h : Carries C r c) {v : Verifier} {now : Int}
    (haccepts : Accepts C v now c) (hlast : ∀ p ∈ r.claims, c.claims p.1 = some (.str p.2)) :
    Compatible r := by
  have hsame : ∀ p ∈ r.claims, ∀ s, c.claims p.1 = some (.str s) → p.2 = s := by
    intro p hp s heq
    rw [hlast p hp] at heq
    exact Claim.str.inj (Option.some.inj heq)
  refine ⟨fun p hp => ⟨fun hk => ?_, fun hk => ?_, fun hk => ?_⟩, fun p hp hk => ?_,
    fun p hp hk => ?_, fun p hp q hq hk => ?_⟩
  · have heq := hlast p hp
    rw [hk, h.expiresAt] at heq
    cases heq
  · have heq := hlast p hp
    rw [hk, h.issuedAt] at heq
    cases heq
  · have heq := hlast p hp
    have hbegun := haccepts.notBefore
    rw [hk] at heq
    rw [heq] at hbegun
    exact hbegun.elim
  · exact hsame p hp _ (by rw [hk]; exact h.issuer)
  · exact hsame p hp _ (by rw [hk]; exact h.audience)
  · exact hsame p hp _ (by rw [hk]; exact hlast q hq)

/-- The dates of a token that carries them and is accepted at its issue
are times the clock has. -/
theorem Carries.fits {expires : Int} (h : Carries C r (r.content C expires))
    (hadd : C.addSecs r.issueTm r.validSecs = some expires) (hcompatible : Compatible r)
    (haccepts : Accepts C ⟨jwtType, r.issuer, r.licensee, defaultLeeway, check⟩ r.issueTm
      (r.content C expires)) : C.Fits r.issueTm r.validSecs := by
  obtain ⟨-, -, -, hexp, -⟩ := hcompatible.content (C := C) expires
  have hseconds : C.seconds expires = C.seconds (r.issueTm + C.date r.validSecs) := by
    have heq := h.expiresAt
    rw [hexp] at heq
    exact Claim.int.inj (Option.some.inj heq)
  obtain ⟨-, hvalid⟩ := Clock.addSecs_exact hadd hseconds
  refine ⟨hvalid, ?_, ?_⟩
  · have hbegun := haccepts.issued
    rw [h.issuedAt] at hbegun
    exact ((begun_int C).mp hbegun).2.2.1.1
  · have hexpires := haccepts.expires
    rw [h.expiresAt] at hexpires
    exact ((notExpired_int C).mp hexpires).2.2.1.2

/-- **When a license is honoured.** With keys that match, a request gives
a token that carries the issuer, the licensee and the dates of its
arguments, and that verifies with any part of its claims at any time of
its validity, exactly if the dates with the default leeway are times the
clock has and no claim is named `exp`, `iat` or `nbf`, gives `iss` or
`aud` another value, or gives a name a second one. -/
theorem honoured_iff (hJ : J.Documented C) (hsign : signer r.algo r.keys = some sign)
    (hcheck : checker r.algo verifyKeys = some check)
    (hmatch : ∀ expires, C.addSecs r.issueTm r.validSecs = some expires →
      Matching J sign check (r.builder J expires)) :
    Honoured J C r verifyKeys ↔ C.Fits r.issueTm r.validSecs ∧ Compatible r := by
  constructor
  · rintro ⟨token, decoded, hissue, hdecode, hcarries, hverify⟩
    -- the token is what was signed
    obtain ⟨expires, hadd, hread⟩ : ∃ expires, C.addSecs r.issueTm r.validSecs = some expires ∧
        J.read decoded = r.content C expires := by
      obtain ⟨expires, hadd, hs⟩ := issue_ok hissue hsign
      obtain ⟨token', decoded', hs', hd, hr, -⟩ := hmatch expires hadd
      obtain rfl : token = token' := Outcome.ok.inj (hs.symm.trans hs')
      obtain rfl : decoded = decoded' := Outcome.ok.inj (hdecode.symm.trans hd)
      exact ⟨expires, hadd, hr.trans (hJ.content_builder r expires)⟩
    have hnow : r.issueTm ≤ r.issueTm + C.date r.validSecs :=
      Int.le_add_of_nonneg_right (Clock.date_nonneg _)
    rw [hread] at hcarries
    have hpasses : ∀ claims, List.Sublist claims r.claims →
        Accepts C ⟨jwtType, r.issuer, r.licensee, defaultLeeway, check⟩ r.issueTm
          (r.content C expires) ∧
        ∀ p ∈ claims, (r.content C expires).claims p.1 = some (.str p.2) := by
      intro claims hsub
      have hok := hverify claims hsub r.issueTm (Int.le_refl _) hnow
      rw [hJ.verify_ok_iff hdecode hcheck, hread] at hok
      exact hok.2
    have haccepts := (hpasses [] (List.nil_sublist _)).1
    have hcompatible := hcarries.compatible haccepts (hpasses r.claims (List.Sublist.refl _)).2
    exact ⟨hcarries.fits hadd hcompatible haccepts, hcompatible⟩
  · rintro ⟨hfit, hcompatible⟩
    obtain ⟨token, decoded, hs, hdecode, hread, hsigned⟩ := hmatch _ hfit.addSecs
    rw [hJ.content_builder] at hread
    obtain ⟨hiss, haud, hiat, hexp, -, hmem⟩ :=
      hcompatible.content (C := C) (r.issueTm + C.date r.validSecs)
    refine ⟨token, decoded, (issue_eq hfit.addSecs hsign).trans hs, hdecode, ?_,
      fun claims hsub now hlo hhi => ?_⟩
    · rw [hread]
      exact ⟨hiss, haud, hiat, hexp⟩
    · rw [hJ.verify_ok_iff hdecode hcheck, hread]
      exact ⟨hsigned, hcompatible.accepts hfit hlo hhi, fun p hp => hmem p (hsub.subset hp)⟩

end Honoured

/-! ## Two licenses of the tests' issuer -/

/-- A clock of nanoseconds. -/
def nanos : Clock := ⟨1000000000, by decide⟩

/-- The header's type and the claims, the last one set first. -/
abbrev Draft := Option String × List (String × Claim)

def Draft.content (b : Draft) : Content := ⟨b.1, fun name => b.2.lookup name⟩

def Draft.set (b : Draft) (name : String) (v : Claim) : Draft := (b.1, (name, v) :: b.2)

/-- Signing and decoding by a table of drafts and unsigned tokens. -/
def tableSign (table : List (Draft × String)) (b : Draft) (a : Algorithm) : Outcome String :=
  match a, table.find? fun e => e.1 = b with
  | .none, some e => .ok e.2
  | _, _ => .throws

def tableDecode (table : List (Draft × String)) (t : String) : Outcome Draft :=
  match table.find? fun e => e.2 = t with
  | some e => .ok e.1
  | none => .throws

/-- jwt-cpp on the tokens of a table. -/
def tableJwt (C : Clock) (table : List (Draft × String)) : Jwt where
  Builder := Draft
  Token := String
  Decoded := Draft
  create := (none, [])
  setType b s := (some s, b.2)
  setIssuer b s := b.set "iss" (.str s)
  setAudience b s := b.set "aud" (.str s)
  setIssuedAt b t := b.set "iat" (.int (C.seconds t))
  setExpiresAt b t := b.set "exp" (.int (C.seconds t))
  setPayloadClaim := Draft.set
  sign := tableSign table
  decode := tableDecode table
  verify v now d :=
    if v.algorithm = .none then
      if Accepts C v now d.content then .ok ()
      else if ["exp", "iat", "nbf"].any fun k => (d.2.lookup k).any (·.date?.isNone) then .throws
      else .error (.jwt 1)
    else .error (.jwt 2)
  content := Draft.content
  read := Draft.content
  signed a _ := a = .none

theorem Draft.content_set (b : Draft) (name : String) (v : Claim) :
    (b.set name v).content = b.content.set name v := by
  refine Content.ext rfl (funext fun k => ?_)
  rw [Content.set_claims]
  by_cases hk : k = name
  · simp [Draft.content, Draft.set, List.lookup_cons, hk]
  · have hbeq : (k == name) = false := beq_eq_false_iff_ne.mpr hk
    simp [Draft.content, Draft.set, List.lookup_cons, hk, hbeq]

theorem tableJwt_documented (C : Clock) (table : List (Draft × String)) :
    (tableJwt C table).Documented C where
  create := rfl
  setType _ _ := rfl
  setIssuer b s := b.content_set "iss" (.str s)
  setAudience b s := b.content_set "aud" (.str s)
  setIssuedAt b t := b.content_set "iat" (.int (C.seconds t))
  setExpiresAt b t := b.content_set "exp" (.int (C.seconds t))
  setPayloadClaim b name v := b.content_set name v
  verify v now d := by
    simp only [tableJwt]
    by_cases ha : v.algorithm = .none
    · rw [if_pos ha]
      by_cases hc : Accepts C v now d.content
      · simp [ha, hc]
      · rw [if_neg hc]
        split <;> simp [hc]
    · simp [ha]

/-- Thirty days for `harry`, with a serial number. -/
def monthly : Request where
  issuer := "issuer1"
  licensee := "harry"
  issueTm := 1700000000 * 1000000000
  validSecs := 30 * 24 * 60 * 60
  algo := .none
  keys := []
  claims := [("disk_sn", "S1")]

/-- The same with a claim named like the expiry. -/
def unlimited : Request := { monthly with claims := [("exp", "never")] }

/-- The two requests and the tokens they give. -/
def licenses : List (Draft × String) :=
  [((some "JWT", [("disk_sn", .str "S1"), ("exp", .int 1702592000), ("iat", .int 1700000000),
      ("aud", .str "harry"), ("iss", .str "issuer1")]),
    "eyJhbGciOiJub25lIiwidHlwIjoiSldUIn0.eyJhdWQiOiJoYXJyeSIsImRpc2tfc24iOiJTMSIsImV4cCI6MTcw" ++
    "MjU5MjAwMCwiaWF0IjoxNzAwMDAwMDAwLCJpc3MiOiJpc3N1ZXIxIn0."),
   ((some "JWT", [("exp", .str "never"), ("exp", .int 1702592000), ("iat", .int 1700000000),
      ("aud", .str "harry"), ("iss", .str "issuer1")]),
    "eyJhbGciOiJub25lIiwidHlwIjoiSldUIn0.eyJhdWQiOiJoYXJyeSIsImV4cCI6Im5ldmVyIiwiaWF0IjoxNzAw" ++
    "MDAwMDAwLCJpc3MiOiJpc3N1ZXIxIn0.")]

/-- Both expire at the same time. -/
theorem addSecs_monthly : nanos.addSecs monthly.issueTm monthly.validSecs
    = some (monthly.issueTm + nanos.date monthly.validSecs) := by
  decide +kernel

/-- A request of the table is signed and decoded as the table says. -/
theorem matching_licenses {r : Request} {e : Draft × String}
    (hadd : nanos.addSecs r.issueTm r.validSecs = some (r.issueTm + nanos.date r.validSecs))
    (hb : r.builder (tableJwt nanos licenses) (r.issueTm + nanos.date r.validSecs) = e.1)
    (hsign : tableSign licenses e.1 .none = .ok e.2)
    (hdecode : tableDecode licenses e.2 = .ok e.1) {expires : Int}
    (h : nanos.addSecs r.issueTm r.validSecs = some expires) :
    Matching (tableJwt nanos licenses) .none .none (r.builder (tableJwt nanos licenses) expires) := by
  rw [hadd] at h
  cases h
  rw [hb]
  exact ⟨e.2, e.1, hsign, hdecode, rfl, rfl⟩

theorem matching_monthly {expires : Int}
    (h : nanos.addSecs monthly.issueTm monthly.validSecs = some expires) :
    Matching (tableJwt nanos licenses) .none .none
      (monthly.builder (tableJwt nanos licenses) expires) :=
  matching_licenses (e := licenses.head (by decide)) addSecs_monthly rfl (by decide +kernel)
    (by decide +kernel) h

/-- The monthly license is honoured. -/
theorem honoured_monthly : Honoured (tableJwt nanos licenses) nanos monthly [] := by
  have hsign : signer monthly.algo monthly.keys = some .none := rfl
  have hcheck : checker monthly.algo [] = some .none := rfl
  refine (honoured_iff (tableJwt_documented _ _) hsign hcheck
    fun _ h => matching_monthly h).mpr ⟨⟨?_, ?_, ?_⟩, ⟨?_, ?_, ?_, ?_⟩⟩
  · decide +kernel
  · decide +kernel
  · decide +kernel
  all_goals simp [monthly]

/-- **The expiry is overridden.** A claim `("exp", "never")` takes the
place of the expiry: jwt-cpp does what it says and the keys match, the
token carries the claim for an expiry, and verifying it throws. -/
theorem unlimited_overrides :
    (tableJwt nanos licenses).Documented nanos ∧
    (∀ expires, nanos.addSecs unlimited.issueTm unlimited.validSecs = some expires →
      Matching (tableJwt nanos licenses) .none .none
        (unlimited.builder (tableJwt nanos licenses) expires)) ∧
    (∃ token decoded, issue (tableJwt nanos licenses) nanos unlimited = .ok token ∧
      (tableJwt nanos licenses).decode token = .ok decoded ∧
      ((tableJwt nanos licenses).read decoded).claims "exp" = some (.str "never") ∧
      verify (tableJwt nanos licenses) token "issuer1" "harry" .none [] [] defaultLeeway
        unlimited.issueTm = .throws) ∧
    ¬ Honoured (tableJwt nanos licenses) nanos unlimited [] := by
  let e : Draft × String := licenses.getLast (by decide)
  have hsign : tableSign licenses e.1 .none = .ok e.2 := by decide +kernel
  have hdecode : tableDecode licenses e.2 = .ok e.1 := by decide +kernel
  have hissue : issue (tableJwt nanos licenses) nanos unlimited = .ok e.2 :=
    (issue_eq (r := unlimited) addSecs_monthly rfl).trans hsign
  have hexp : e.1.content.claims "exp" = some (.str "never") := by decide +kernel
  refine ⟨tableJwt_documented _ _, fun _ h => ?_, ⟨e.2, e.1, hissue, hdecode, hexp, ?_⟩, ?_⟩
  · exact matching_licenses (r := unlimited) addSecs_monthly rfl hsign hdecode h
  · decide +kernel
  · rintro ⟨token, decoded, hissue', hdecode', hcarries, -⟩
    obtain rfl : e.2 = token := Outcome.ok.inj (hissue.symm.trans hissue')
    obtain rfl : e.1 = decoded := Outcome.ok.inj (hdecode.symm.trans hdecode')
    have heq := hcarries.expiresAt
    rw [show (tableJwt nanos licenses).read e.1 = e.1.content from rfl, hexp] at heq
    cases heq

end HighJump.Util.License
