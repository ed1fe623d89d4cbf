/-
HighJump.Util.LicenseVerifier — `verifier` of `hj/util/license.hpp`: both
overloads of `verify`, and `parse`.

`verify` reports by error code and calls what throws: the decoder, the
verifier of jwt-cpp, the getter of a claim and its text. Nothing is caught.
`verify_answers_iff` says for which tokens every call on the way returns;
for these the answer is right, for the others there is none.

`parse` catches everything, one level too late: it writes into the
caller's `license_info` between the calls that may throw, sets the
audience only where there is one and appends to the claims.
`parse_allOrNothing_iff` says what the token and the `license_info` have to
be for that not to show.
-/
import HighJump.Lib.Loop
import HighJump.Lib.Streams
import HighJump.Util.LicenseTheorems

namespace HighJump.Util.License

open HighJump.Lib

/-! ## Verifying -/

/-- The call comes back, with a value or an error code. -/
def Outcome.Returns {α : Type} : Outcome α → Prop
  | .ok _ => True
  | .error _ => True
  | .throws => False
  | .overflow => False

section Returns

variable {α : Type}

@[simp]
theorem Outcome.returns_ok (a : α) : (Outcome.ok a).Returns := trivial

@[simp]
theorem Outcome.returns_error (e : Err) : (Outcome.error e : Outcome α).Returns := trivial

@[simp]
theorem Outcome.not_returns_throws : ¬ (Outcome.throws : Outcome α).Returns := id

@[simp]
theorem Outcome.not_returns_overflow : ¬ (Outcome.overflow : Outcome α).Returns := id

end Returns

/-- `verifier`: `_id`, `_algo` and `_keys`. -/
structure LicenseVerifier where
  id : String
  algo : SignAlgo
  keys : List String

/-- `while(std::getline(in, line)) buf += line;` -/
def lineTurn (_ : Nat) (s : List UInt8 × IStream) :
    Option (Turn (List UInt8 × IStream) (List UInt8 × IStream)) :=
  let (inp, line) := s.2.getline
  if inp.ok then some (.again (s.1 ++ line, inp)) else some (.exit (s.1, inp))

/-- The loop; a line that is read takes a character at least. -/
def readLines (inp : IStream) : Option (List UInt8 × IStream) :=
  repeatUntil lineTurn (inp.rest.length + 1) ([], inp)

namespace LicenseVerifier

variable (J : Jwt) (text : List UInt8 → J.Token) (V : LicenseVerifier)

/-- `verify` of a token. -/
def verify (token : J.Token) (licensee : String) (claims : List (String × String)) (leeway : Nat)
    (now : Int) : Outcome Unit :=
  License.verify J token V.id licensee V.algo V.keys claims leeway now

/-- `verify` of a stream: its lines, joined, are the token. -/
def verifyStream (inp : IStream) (licensee : String) (claims : List (String × String))
    (leeway : Nat) (now : Int) : Option (Outcome Unit) :=
  if !inp.ok then some (.error (.license .inputStreamInvalid))
  else do
    let (buf, _) ← readLines inp
    if buf.isEmpty then return .error (.license .inputStreamInvalid)
    return License.verify J (text buf) V.id licensee V.algo V.keys claims leeway now

end LicenseVerifier

/-! ## Streams -/

/-- The lines that are still in a stream, joined. -/
def joined (inp : IStream) : List UInt8 :=
  if inp.eof || inp.fail then [] else inp.rest.filter (· != 0x0A)

theorem lineTurn_eq {n : Nat} {buf line : List UInt8} {inp inp' : IStream}
    (h : inp.getline = (inp', line)) :
    lineTurn n (buf, inp) =
      some (if inp'.ok then .again (buf ++ line, inp') else .exit (buf, inp')) := by
  simp only [lineTurn, h]
  split <;> rfl

theorem filter_line {line : List UInt8} (h : 0x0A ∉ line) : line.filter (· != 0x0A) = line := by
  refine List.filter_eq_self.mpr fun b hb => bne_iff_ne.mpr ?_
  rintro rfl
  exact h hb

/-- A turn moves a line from the stream to the buffer, or finds none. -/
theorem lineTurn_cases (n : Nat) (buf : List UInt8) (inp : IStream) :
    (∃ line inp', lineTurn n (buf, inp) = some (.again (buf ++ line, inp')) ∧
      line ++ joined inp' = joined inp ∧ inp'.rest.length < inp.rest.length) ∨
    ∃ inp', lineTurn n (buf, inp) = some (.exit (buf, inp')) ∧ joined inp = [] := by
  by_cases hstop : (inp.eof || inp.fail) = true
  · refine .inr ⟨{ inp with fail := true }, ?_, by rw [joined, if_pos hstop]⟩
    exact lineTurn_eq (by rw [IStream.getline, if_pos hstop])
  · have hflags : inp.eof = false ∧ inp.fail = false := by simpa using hstop
    have hjoined : joined inp = inp.rest.filter (· != 0x0A) := if_neg hstop
    obtain ⟨inp', line, hget, hline, ⟨hrest, heof, hfail⟩ | ⟨hrest, hnil, heof, hfail⟩⟩ :=
      IStream.getline_cases hflags.1 hflags.2
    · refine .inl ⟨line, inp', ?_, ?_, ?_⟩
      · rw [lineTurn_eq hget, if_pos (by simp [IStream.ok, hfail])]
      · rw [hjoined, hrest, List.filter_append, filter_line hline, joined, heof, hfail]
        rfl
      · rw [hrest, List.length_append, List.length_cons]
        omega
    · -- the last line: nothing at all, or one that is not ended
      have hlast : joined inp = line := by rw [hjoined, hrest, filter_line hline]
      cases line with
      | nil =>
        refine .inr ⟨inp', ?_, hlast⟩
        rw [lineTurn_eq hget, if_neg (by simp [IStream.ok, hfail])]
      | cons b bs =>
        refine .inl ⟨b :: bs, inp', ?_, ?_, ?_⟩
        · rw [lineTurn_eq hget, if_pos (by simp [IStream.ok, hfail])]
        · rw [hlast, joined, heof, Bool.true_or, if_pos rfl, List.append_nil]
        · rw [hrest, hnil]
          exact Nat.zero_lt_succ _

/-- The loop ends and its buffer is everything but the line ends. -/
theorem readLines_eq (inp : IStream) : ∃ inp', readLines inp = some (joined inp, inp') := by
  have hrun : ∃ r, readLines inp = some r ∧ r.1 = joined inp := by
    refine repeatUntil_spec (fun s => s.1 ++ joined s.2 = joined inp) _ (fun s => s.2.rest.length)
      ?_ _ ([], inp) rfl (Nat.lt_succ_self _)
    rintro n ⟨buf, cur⟩ hI
    rcases lineTurn_cases n buf cur with ⟨line, cur', hturn, hmove, hlt⟩ | ⟨cur', hturn, hnone⟩
    · refine .inl ⟨_, hturn, ?_, hlt⟩
      rw [List.append_assoc, hmove]
      exact hI
    · refine .inr ⟨_, hturn, ?_⟩
      simpa [hnone] using hI
  obtain ⟨⟨buf, inp'⟩, hrun, rfl⟩ := hrun
  exact ⟨inp', hrun⟩

/-! ## When verifying answers -/

section Answers

variable (J : Jwt) (C : Clock) (text : List UInt8 → J.Token) (V : LicenseVerifier)

/-- The token a stream carries. -/
def carried (inp : IStream) : Option J.Token :=
  if (joined inp).isEmpty then none else some (text (joined inp))

/-- **What success stands for.** The token decodes, the keys are there and
the signature is theirs, the type, the issuer, the audience and the times
check, and every listed claim has the listed text. -/
def LicenseVerifier.Valid (token : J.Token) (licensee : String) (claims : List (String × String))
    (leeway : Nat) (now : Int) : Prop :=
  ∃ decoded algorithm, J.decode token = .ok decoded ∧ checker V.algo V.keys = some algorithm ∧
    J.signed algorithm decoded ∧
    Accepts C ⟨jwtType, V.id, licensee, leeway, algorithm⟩ now (J.read decoded) ∧
    ∀ p ∈ claims, (J.read decoded).claims p.1 = some (.str p.2)

/-- A call that returns, with success exactly for what is valid. -/
structure Answers (r : Outcome Unit) (valid : Prop) : Prop where
  returns : r.Returns
  ok_iff : r = .ok () ↔ valid

theorem not_answers {r : Outcome Unit} {valid : Prop} (hr : r = .throws) : ¬ Answers r valid :=
  fun h => Outcome.not_returns_throws (hr ▸ h.returns)

/-- The listed claims are there and text, up to the first that differs. -/
def Readable (c : Content) : List (String × String) → Prop
  | [] => True
  | p :: rest => ∃ s, c.claims p.1 = some (.str s) ∧ (s = p.2 → Readable c rest)

/-- No call of jwt-cpp on the way throws: the token decodes; where there
are keys enough, the verifier comes to an answer; and where that is
success, the claims can be read as far as they are. -/
structure LicenseVerifier.Quiet (token : J.Token) (licensee : String)
    (claims : List (String × String)) (leeway : Nat) (now : Int) : Prop where
  decode : (J.decode token).Returns
  verify : ∀ decoded algorithm, J.decode token = .ok decoded →
    checker V.algo V.keys = some algorithm →
    (J.verify ⟨jwtType, V.id, licensee, leeway, algorithm⟩ now decoded).Returns
  claims : ∀ decoded algorithm, J.decode token = .ok decoded →
    checker V.algo V.keys = some algorithm →
    J.verify ⟨jwtType, V.id, licensee, leeway, algorithm⟩ now decoded = .ok () →
    Readable (J.read decoded) claims

variable {J C V}

theorem checkClaims_returns_iff (c : Content) (claims : List (String × String)) :
    (checkClaims c claims).Returns ↔ Readable c claims := by
  induction claims with
  | nil => exact Iff.rfl
  | cons p rest ih =>
    obtain ⟨name, value⟩ := p
    rw [checkClaims, Readable]
    cases hc : c.claims name with
    | none => simp
    | some v =>
      cases v with
      | str s =>
        by_cases hs : s = value
        · simp [hs, ih]
        · simp [hs]
      | int n => simp
      | number n => simp
      | array texts => simp
      | other => simp

variable {token : J.Token} {licensee : String} {claims : List (String × String)} {leeway : Nat}
  {now : Int}

/-- `verify` returns exactly if all it calls does. -/
theorem LicenseVerifier.verify_returns_iff :
    (V.verify J token licensee claims leeway now).Returns ↔
      V.Quiet J token licensee claims leeway now := by
  rw [LicenseVerifier.verify, License.verify]
  cases hdecode : J.decode token with
  | error e => exact ⟨fun _ => ⟨by rw [hdecode]; trivial, by simp [hdecode], by simp [hdecode]⟩,
      fun _ => trivial⟩
  | throws => exact ⟨False.elim, fun h => by simpa [hdecode] using h.decode⟩
  | overflow => exact ⟨False.elim, fun h => by simpa [hdecode] using h.decode⟩
  | ok decoded =>
    cases hcheck : checker V.algo V.keys with
    | none => exact ⟨fun _ => ⟨by rw [hdecode]; trivial, by simp [hcheck], by simp [hcheck]⟩,
        fun _ => trivial⟩
    | some algorithm =>
      have hquiet : V.Quiet J token licensee claims leeway now ↔
          (J.verify ⟨jwtType, V.id, licensee, leeway, algorithm⟩ now decoded).Returns ∧
          (J.verify ⟨jwtType, V.id, licensee, leeway, algorithm⟩ now decoded = .ok () →
            Readable (J.read decoded) claims) := by
        constructor
        · exact fun h => ⟨h.verify _ _ hdecode hcheck, h.claims _ _ hdecode hcheck⟩
        · rintro ⟨hverify, hclaims⟩
          refine ⟨by rw [hdecode]; trivial, fun d a hd ha => ?_, fun d a hd ha => ?_⟩
          all_goals
            obtain rfl := Outcome.ok.inj (hdecode.symm.trans hd)
            obtain rfl := Option.some.inj (hcheck.symm.trans ha)
            assumption
      rw [hquiet]
      cases hverify : J.verify ⟨jwtType, V.id, licensee, leeway, algorithm⟩ now decoded with
      | ok u => simpa [hverify] using checkClaims_returns_iff _ _
      | error e => simp [hverify]
      | throws => simp [hverify]
      | overflow => simp [hverify]

/-- Where it succeeds the token is valid, and the other way round. -/
theorem LicenseVerifier.verify_valid_iff (hJ : J.Documented C) :
    V.verify J token licensee claims leeway now = .ok () ↔
      V.Valid J C token licensee claims leeway now := by
  cases hdecode : J.decode token with
  | ok decoded =>
    cases hcheck : checker V.algo V.keys with
    | none => simp [LicenseVerifier.verify, License.verify, LicenseVerifier.Valid, hdecode, hcheck]
    | some algorithm =>
      rw [LicenseVerifier.verify, hJ.verify_ok_iff hdecode hcheck]
      simp [LicenseVerifier.Valid, hdecode, hcheck]
  | error e => simp [LicenseVerifier.verify, License.verify, LicenseVerifier.Valid, hdecode]
  | throws => simp [LicenseVerifier.verify, License.verify, LicenseVerifier.Valid, hdecode]
  | overflow => simp [LicenseVerifier.verify, License.verify, LicenseVerifier.Valid, hdecode]

/-- The overload for streams is the other one on the token the stream
carries. -/
theorem LicenseVerifier.verifyStream_eq (inp : IStream) :
    V.verifyStream J text inp licensee claims leeway now = some
      (match carried J text inp with
      | none => .error (.license .inputStreamInvalid)
      | some token => V.verify J token licensee claims leeway now) := by
  cases hok : inp.ok with
  | false =>
    have hjoined : joined inp = [] := by
      simp_all [IStream.ok, joined]
    simp [verifyStream, hok, carried, hjoined]
  | true =>
    obtain ⟨inp', hread⟩ := readLines_eq inp
    cases hjoined : joined inp with
    | nil => simp [verifyStream, hok, hread, carried, hjoined]
    | cons b bs => simp [verifyStream, hok, hread, carried, hjoined, LicenseVerifier.verify]

/-- **When verification answers.** With any token, and with any stream,
`verify` returns, and succeeds exactly if the token (the one the stream
carries) is valid, if and only if no call of jwt-cpp on the way throws. -/
theorem verify_answers_iff (hJ : J.Documented C) (V : LicenseVerifier) (licensee : String)
    (claims : List (String × String)) (leeway : Nat) (now : Int) :
    (∀ token, Answers (V.verify J token licensee claims leeway now)
        (V.Valid J C token licensee claims leeway now) ↔
      V.Quiet J token licensee claims leeway now) ∧
    ∀ inp, (∃ r, V.verifyStream J text inp licensee claims leeway now = some r ∧
        Answers r (∃ token ∈ carried J text inp, V.Valid J C token licensee claims leeway now)) ↔
      ∀ token ∈ carried J text inp, V.Quiet J token licensee claims leeway now := by
  have htoken : ∀ token, Answers (V.verify J token licensee claims leeway now)
      (V.Valid J C token licensee claims leeway now) ↔
        V.Quiet J token licensee claims leeway now := by
    intro token
    rw [← LicenseVerifier.verify_returns_iff]
    exact ⟨fun h => h.returns, fun h => ⟨h, LicenseVerifier.verify_valid_iff hJ⟩⟩
  refine ⟨htoken, fun inp => ?_⟩
  rw [LicenseVerifier.verifyStream_eq]
  cases hcarried : carried J text inp with
  | none =>
    refine ⟨fun _ _ h => ?_, fun _ => ⟨_, rfl, trivial, ?_⟩⟩
    · cases h
    · simp
  | some token =>
    have hvalid : (∃ token' ∈ some token, V.Valid J C token' licensee claims leeway now) ↔
        V.Valid J C token licensee claims leeway now := by simp
    have hquiet : (∀ token' ∈ some token, V.Quiet J token' licensee claims leeway now) ↔
        V.Quiet J token licensee claims leeway now := by simp
    rw [hvalid, hquiet, ← htoken]
    constructor
    · rintro ⟨r, hr, h⟩
      obtain rfl := Option.some.inj hr
      exact h
    · exact fun h => ⟨_, rfl, h⟩

end Answers

/-- The characters of a text in Latin script. -/
def latin (bytes : List UInt8) : String := String.ofList (bytes.map fun b => Char.ofNat b.toNat)

/-- The verifier of the tests' issuer. -/
def issuer1 : LicenseVerifier := ⟨"issuer1", .none, []⟩

/-- The token of the monthly license. -/
def monthlyToken : String := (licenses.head (by decide)).2

/-- The monthly license, with its serial number, when it is issued. -/
theorem verify_answers_monthly :
    (tableJwt nanos licenses).Documented nanos ∧
    Answers (issuer1.verify (tableJwt nanos licenses) monthlyToken "harry" [("disk_sn", "S1")]
        defaultLeeway monthly.issueTm)
      (issuer1.Valid (tableJwt nanos licenses) nanos monthlyToken "harry" [("disk_sn", "S1")]
        defaultLeeway monthly.issueTm) := by
  have hok : issuer1.verify (tableJwt nanos licenses) monthlyToken "harry" [("disk_sn", "S1")]
      defaultLeeway monthly.issueTm = .ok () := by decide +kernel
  have hquiet := LicenseVerifier.verify_returns_iff.mp (hok ▸ Outcome.returns_ok ())
  exact ⟨tableJwt_documented _ _, ((verify_answers_iff latin (tableJwt_documented _ _) issuer1
    "harry" [("disk_sn", "S1")] defaultLeeway monthly.issueTm).1 monthlyToken).mpr hquiet⟩

/-- **Verification throws.** On a text that is not a token, from an
argument or a stream, and on a valid token that lacks a listed name. -/
theorem verify_throws :
    (tableJwt nanos licenses).Documented nanos ∧
    (¬ Answers (issuer1.verify (tableJwt nanos licenses) "this_is_not_a_jwt_token" "harry" []
        defaultLeeway monthly.issueTm)
      (issuer1.Valid (tableJwt nanos licenses) nanos "this_is_not_a_jwt_token" "harry" []
        defaultLeeway monthly.issueTm)) ∧
    issuer1.verifyStream (tableJwt nanos licenses) latin (.ofBytes [0x61, 0x0A, 0x62]) "harry" []
      defaultLeeway monthly.issueTm = some .throws ∧
    ¬ Answers (issuer1.verify (tableJwt nanos licenses) monthlyToken "harry" [("user_id", "12345")]
        defaultLeeway monthly.issueTm)
      (issuer1.Valid (tableJwt nanos licenses) nanos monthlyToken "harry" [("user_id", "12345")]
        defaultLeeway monthly.issueTm) := by
  have htext : issuer1.verify (tableJwt nanos licenses) "this_is_not_a_jwt_token" "harry" []
      defaultLeeway monthly.issueTm = .throws := by decide +kernel
  have hclaim : issuer1.verify (tableJwt nanos licenses) monthlyToken "harry"
      [("user_id", "12345")] defaultLeeway monthly.issueTm = .throws := by decide +kernel
  exact ⟨tableJwt_documented _ _, not_answers htext, by decide +kernel, not_answers hclaim⟩

/-! ## Parsing -/

/-- `license_info`. -/
structure LicenseInfo where
  issuer : String
  audience : String
  issuedAt : Int
  expiresAt : Int
  claims : List (String × String)
  deriving DecidableEq

/-- `license_info{}`. -/
def LicenseInfo.fresh : LicenseInfo := ⟨"", "", 0, 0, []⟩

/-- A name of the payload and its value: the text where `is_string()`, and
what `dump()` gives or throws. -/
structure Member where
  name : String
  text : Option String
  dump : Option String

/-- What is read of a decoded token; `none` is an exception. The audience
is a set, in its order. -/
structure Getters (J : Jwt) where
  getIssuer : J.Decoded → Option String
  getIssuedAt : J.Decoded → Option Int
  getExpiresAt : J.Decoded → Option Int
  getAudience : J.Decoded → Option (List String)
  getPayloadJson : J.Decoded → List Member

/-- A block that may throw. What it wrote to `info` before stays written. -/
abbrev TryBlock := ExceptT Unit (StateM LicenseInfo)

/-- The value of a call, or its exception. -/
def orThrow {α : Type} : Option α → TryBlock α
  | some a => pure a
  | none => throw ()

def Outcome.value? {α : Type} : Outcome α → Option α
  | .ok a => some a
  | _ => none

theorem Outcome.eq_ok_of_value {α : Type} {r : Outcome α} {a : α} (h : r.value? = some a) :
    r = .ok a := by
  cases r with
  | ok b => exact congrArg Outcome.ok (Option.some.inj h)
  | error e => cases h
  | throws => cases h
  | overflow => cases h

/-- The names that have fields of their own. -/
def reserved : List String := ["iss", "aud", "iat", "exp"]

/-- `pair.second.is_string() ? pair.second.get<std::string>() : pair.second.dump()`. -/
def Member.value (m : Member) : Option String :=
  match m.text with
  | some s => some s
  | none => m.dump

/-- One turn of the loop over the payload. -/
def appendClaim (m : Member) : TryBlock Unit :=
  if m.name ∈ reserved then pure ()
  else do
    let value ← orThrow m.value
    modify fun info => { info with claims := info.claims ++ [(m.name, value)] }

variable {J : Jwt} (G : Getters J)

/-- The `try` block of `parse`. -/
def parseBlock (token : J.Token) : TryBlock Unit := do
  let decoded ← orThrow (J.decode token).value?
  let issuer ← orThrow (G.getIssuer decoded)
  modify fun info => { info with issuer }
  let issuedAt ← orThrow (G.getIssuedAt decoded)
  modify fun info => { info with issuedAt }
  let expiresAt ← orThrow (G.getExpiresAt decoded)
  modify fun info => { info with expiresAt }
  let audience ← orThrow (G.getAudience decoded)
  if let first :: _ := audience then
    modify fun info => { info with audience := first }
  forM (G.getPayloadJson decoded) appendClaim

/-- `parse`, with `catch(...)`. -/
def parse (info : LicenseInfo) (token : J.Token) : Outcome Unit × LicenseInfo :=
  match (parseBlock G token).run.run info with
  | (.ok (), info) => (.ok (), info)
  | (.error (), info) => (.error (.license .parseLicenseInfoFailed), info)

/-! ## When parsing is all or nothing -/

/-- **All or nothing.** An error leaves `info` as it was. Success leaves
what the token alone determines, which is what a fresh `license_info` ends
with, and parsing again changes nothing. -/
structure AllOrNothing (info : LicenseInfo) (token : J.Token) : Prop where
  failed : ∀ e, (parse G info token).1 = .error e → (parse G info token).2 = info
  parsed : (parse G info token).1 = .ok () → (parse G info token).2 = (parse G .fresh token).2
  twice : (parse G info token).1 = .ok () →
    (parse G (parse G info token).2 token).2 = (parse G info token).2

/-- The names of a payload that are the license's own claims. -/
def ownClaims (payload : List Member) : List Member := payload.filter (·.name ∉ reserved)

namespace Getters

def own (d : J.Decoded) : List Member := ownClaims (G.getPayloadJson d)

/-- The issuer and both dates can be read. -/
def Dated (d : J.Decoded) : Prop :=
  (G.getIssuer d).isSome ∧ (G.getIssuedAt d).isSome ∧ (G.getExpiresAt d).isSome

/-- Everything can be read. -/
structure Complete (d : J.Decoded) : Prop where
  dated : G.Dated d
  audience : (G.getAudience d).isSome
  claims : ∀ m ∈ G.own d, m.value.isSome

/-- What is read before the first thing that cannot be is in `info`
already, and the first claim of its own is the first that cannot. -/
@[mk_iff]
structure Untouched (d : J.Decoded) (info : LicenseInfo) : Prop where
  issuer : ∀ s, G.getIssuer d = some s → info.issuer = s
  issuedAt : (G.getIssuer d).isSome → ∀ t, G.getIssuedAt d = some t → info.issuedAt = t
  expiresAt : (G.getIssuer d).isSome → (G.getIssuedAt d).isSome →
    ∀ t, G.getExpiresAt d = some t → info.expiresAt = t
  audience : G.Dated d → ∀ a rest, G.getAudience d = some (a :: rest) → info.audience = a
  claims : G.Dated d → (G.getAudience d).isSome → ∀ m ∈ (G.own d).head?, m.value = none

end Getters

/-- The claims that are appended: up to the first that cannot be read. -/
def collected : List Member → List (String × String)
  | [] => []
  | m :: rest =>
      match m.value with
      | none => []
      | some value => (m.name, value) :: collected rest

theorem collected_eq_nil {ms : List Member} :
    collected ms = [] ↔ ∀ m ∈ ms.head?, m.value = none := by
  cases ms with
  | nil => simp [collected]
  | cons m rest => cases hm : m.value <;> simp [collected, hm]

section Run

variable {α β : Type} {G}

@[simp]
theorem run_orThrow_bind (o : Option α) (f : α → TryBlock β) (info : LicenseInfo) :
    (orThrow o >>= f).run.run info =
      match o with
      | none => (.error (), info)
      | some a => (f a).run.run info := by
  cases o <;> rfl

@[simp]
theorem run_modify_bind (g : LicenseInfo → LicenseInfo) (f : PUnit → TryBlock β)
    (info : LicenseInfo) :
    ((modify g : TryBlock PUnit) >>= f).run.run info = (f ⟨⟩).run.run (g info) := rfl

/-- The loop appends what it can read and throws at the rest. -/
theorem run_appendClaims (ms : List Member) : ∀ info : LicenseInfo,
    (forM ms appendClaim).run.run info =
      (if (ownClaims ms).all (·.value.isSome) then .ok () else .error (),
        { info with claims := info.claims ++ collected (ownClaims ms) }) := by
  induction ms with
  | nil =>
    intro info
    simp [ownClaims, collected]
    rfl
  | cons m rest ih =>
    intro info
    by_cases hname : m.name ∈ reserved
    · have hskip : (appendClaim m >>= fun _ => forM rest appendClaim).run.run info =
          (forM rest appendClaim).run.run info := by
        rw [appendClaim, if_pos hname]
        rfl
      have hown : ownClaims (m :: rest) = ownClaims rest := by simp [ownClaims, hname]
      rw [List.forM_cons, hskip, ih, hown]
    · have hown : ownClaims (m :: rest) = m :: ownClaims rest := by simp [ownClaims, hname]
      rw [List.forM_cons, appendClaim, if_neg hname, bind_assoc, run_orThrow_bind, hown]
      cases hvalue : m.value with
      | none => simp [hvalue, collected]
      | some value =>
        simp only [run_modify_bind, ih]
        simp [hvalue, collected]

/-- What `parse` ends with where the issuer, the dates and the audience
can be read. -/
def LicenseInfo.filled (info : LicenseInfo) (issuer : String) (issuedAt expiresAt : Int)
    (audience : List String) (claims : List (String × String)) : LicenseInfo :=
  ⟨issuer, audience.headD info.audience, issuedAt, expiresAt, info.claims ++ claims⟩

variable {token : J.Token} {d : J.Decoded} {issuer : String} {issuedAt expiresAt : Int}
  {audience : List String}

theorem LicenseInfo.eq_filled_iff {info : LicenseInfo} {claims : List (String × String)} :
    info = info.filled issuer issuedAt expiresAt audience claims ↔
      info.issuer = issuer ∧ info.issuedAt = issuedAt ∧ info.expiresAt = expiresAt ∧
        (∀ a rest, audience = a :: rest → info.audience = a) ∧ claims = [] := by
  cases info
  cases audience with
  | nil => simp [LicenseInfo.filled]
  | cons a rest => simp [LicenseInfo.filled, and_left_comm]

theorem run_parseBlock (hdecode : J.decode token = .ok d) (hissuer : G.getIssuer d = some issuer)
    (hissued : G.getIssuedAt d = some issuedAt) (hexpires : G.getExpiresAt d = some expiresAt)
    (haudience : G.getAudience d = some audience) (info : LicenseInfo) :
    (parseBlock G token).run.run info =
      (if (G.own d).all (·.value.isSome) then .ok () else .error (),
        info.filled issuer issuedAt expiresAt audience (collected (G.own d))) := by
  have hvalue : (J.decode token).value? = some d := by rw [hdecode]; rfl
  unfold parseBlock
  simp only [run_orThrow_bind, run_modify_bind, hvalue, hissuer, hissued, hexpires, haudience]
  cases audience with
  | nil => exact run_appendClaims _ _
  | cons a rest => exact run_appendClaims _ _

variable {info info' : LicenseInfo}

/-- Where the block throws, what it wrote is all there is to it. -/
theorem allOrNothing_of_throws (h : (parseBlock G token).run.run info = (.error (), info')) :
    AllOrNothing G info token ↔ info = info' := by
  have hparse : parse G info token = (.error (.license .parseLicenseInfoFailed), info') := by
    rw [parse, h]
  constructor
  · intro hall
    have hsame : info' = info := by simpa [hparse] using hall.failed
    exact hsame.symm
  · rintro rfl
    exact ⟨by simp [hparse], by simp [hparse], by simp [hparse]⟩

/-- Where it does not, the claims and an audience that is not there are
what may be left of before. -/
theorem allOrNothing_of_ok {claims : List (String × String)}
    (h : ∀ info, (parseBlock G token).run.run info =
      (.ok (), info.filled issuer issuedAt expiresAt audience claims)) :
    AllOrNothing G info token ↔
      claims = [] ∧ info.claims = [] ∧ (audience = [] → info.audience = "") := by
  have hparse : ∀ info, parse G info token =
      (.ok (), info.filled issuer issuedAt expiresAt audience claims) := by
    intro info
    rw [parse, h]
  have hfresh : info.filled issuer issuedAt expiresAt audience claims =
        LicenseInfo.fresh.filled issuer issuedAt expiresAt audience claims ↔
      info.claims = [] ∧ (audience = [] → info.audience = "") := by
    cases audience <;> simp [LicenseInfo.filled, LicenseInfo.fresh, and_comm]
  have htwice : (info.filled issuer issuedAt expiresAt audience claims).filled issuer issuedAt
        expiresAt audience claims = info.filled issuer issuedAt expiresAt audience claims ↔
      claims = [] := by
    cases audience <;> simp [LicenseInfo.filled]
  constructor
  · intro hall
    have hparsed := hall.parsed
    have hagain := hall.twice
    simp only [hparse, forall_const] at hparsed hagain
    exact ⟨htwice.mp hagain, hfresh.mp hparsed⟩
  · rintro ⟨hclaims, hrest⟩
    refine ⟨fun e he => ?_, fun _ => ?_, fun _ => ?_⟩
    · rw [hparse] at he
      cases he
    · simp only [hparse]
      exact hfresh.mpr hrest
    · simp only [hparse]
      exact htwice.mpr hclaims

/-- The writes of a token that cannot be read to its end. -/
theorem allOrNothing_of_incomplete (hdecode : J.decode token = .ok d) (hno : ¬ G.Complete d) :
    AllOrNothing G info token ↔ G.Untouched d info := by
  have hvalue : (J.decode token).value? = some d := by rw [hdecode]; rfl
  cases hissuer : G.getIssuer d with
  | none =>
    have hrun : (parseBlock G token).run.run info = (.error (), info) := by
      simp only [parseBlock, run_orThrow_bind, hvalue, hissuer]
    rw [allOrNothing_of_throws hrun]
    simp [Getters.untouched_iff, Getters.Dated, hissuer]
  | some issuer =>
    cases hissued : G.getIssuedAt d with
    | none =>
      have hrun : (parseBlock G token).run.run info = (.error (), { info with issuer }) := by
        simp only [parseBlock, run_orThrow_bind, run_modify_bind, hvalue, hissuer, hissued]
      rw [allOrNothing_of_throws hrun]
      cases info
      simp [Getters.untouched_iff, Getters.Dated, hissuer, hissued]
    | some issuedAt =>
      cases hexpires : G.getExpiresAt d with
      | none =>
        have hrun : (parseBlock G token).run.run info =
            (.error (), { info with issuer, issuedAt }) := by
          simp only [parseBlock, run_orThrow_bind, run_modify_bind, hvalue, hissuer, hissued, hexpires]
        rw [allOrNothing_of_throws hrun]
        cases info
        simp [Getters.untouched_iff, Getters.Dated, hissuer, hissued, hexpires]
      | some expiresAt =>
        cases haudience : G.getAudience d with
        | none =>
          have hrun : (parseBlock G token).run.run info =
              (.error (), { info with issuer, issuedAt, expiresAt }) := by
            simp only [parseBlock, run_orThrow_bind, run_modify_bind, hvalue, hissuer, hissued,
              hexpires, haudience]
          rw [allOrNothing_of_throws hrun]
          cases info
          simp [Getters.untouched_iff, Getters.Dated, hissuer, hissued, hexpires, haudience]
        | some audience =>
          have hall : ¬ (G.own d).all (·.value.isSome) = true := by
            intro hall
            refine hno ⟨?_, ?_, List.all_eq_true.mp hall⟩
            · simp [Getters.Dated, hissuer, hissued, hexpires]
            · simp [haudience]
          have hrun := run_parseBlock hdecode hissuer hissued hexpires haudience info
          rw [if_neg hall] at hrun
          rw [allOrNothing_of_throws hrun, LicenseInfo.eq_filled_iff, collected_eq_nil]
          simp [Getters.untouched_iff, Getters.Dated, hissuer, hissued, hexpires, haudience]

theorem collected_eq_nil_of_complete (h : G.Complete d) :
    collected (G.own d) = [] ↔ G.own d = [] := by
  rw [collected_eq_nil]
  cases hown : G.own d with
  | nil => simp
  | cons m rest =>
    have hm := h.claims m (hown ▸ List.mem_cons_self)
    simp [Option.isSome_iff_ne_none.mp hm]

/-- What is left of before by a token that can. -/
theorem allOrNothing_of_complete (hdecode : J.decode token = .ok d) (h : G.Complete d) :
    AllOrNothing G info token ↔
      G.own d = [] ∧ info.claims = [] ∧ (G.getAudience d = some [] → info.audience = "") := by
  obtain ⟨issuer, hissuer⟩ := Option.isSome_iff_exists.mp h.dated.1
  obtain ⟨issuedAt, hissued⟩ := Option.isSome_iff_exists.mp h.dated.2.1
  obtain ⟨expiresAt, hexpires⟩ := Option.isSome_iff_exists.mp h.dated.2.2
  obtain ⟨audience, haudience⟩ := Option.isSome_iff_exists.mp h.audience
  have hall : (G.own d).all (·.value.isSome) = true := List.all_eq_true.mpr h.claims
  have hrun : ∀ info, (parseBlock G token).run.run info =
      (.ok (), info.filled issuer issuedAt expiresAt audience (collected (G.own d))) := by
    intro info
    rw [run_parseBlock hdecode hissuer hissued hexpires haudience, if_pos hall]
  rw [allOrNothing_of_ok hrun, collected_eq_nil_of_complete h, haudience, Option.some_inj]

end Run

/-- **When parsing is all or nothing.** A token that does not decode is no
trouble. One that can be read to its end has to have no claims of its own,
and `info` none either, nor an audience where the token has none; with one
that cannot, what is read before has to be in `info` already. -/
theorem parse_allOrNothing_iff (info : LicenseInfo) (token : J.Token) :
    AllOrNothing G info token ↔ ∀ d, J.decode token = .ok d →
      (G.Complete d → G.own d = [] ∧ info.claims = [] ∧
        (G.getAudience d = some [] → info.audience = "")) ∧
      (¬ G.Complete d → G.Untouched d info) := by
  cases hvalue : (J.decode token).value? with
  | none =>
    have hrun : (parseBlock G token).run.run info = (.error (), info) := by
      simp only [parseBlock, run_orThrow_bind, hvalue]
    rw [allOrNothing_of_throws hrun]
    refine iff_of_true rfl fun d hdecode => ?_
    rw [hdecode] at hvalue
    cases hvalue
  | some d =>
    have hdecode : J.decode token = .ok d := Outcome.eq_ok_of_value hvalue
    constructor
    · intro h d' hdecode'
      obtain rfl := Outcome.ok.inj (hdecode.symm.trans hdecode')
      exact ⟨fun hc => (allOrNothing_of_complete hdecode hc).mp h,
        fun hc => (allOrNothing_of_incomplete hdecode hc).mp h⟩
    · intro h
      by_cases hc : G.Complete d
      · exact (allOrNothing_of_complete hdecode hc).mpr ((h d hdecode).1 hc)
      · exact (allOrNothing_of_incomplete hdecode hc).mpr ((h d hdecode).2 hc)

/-- A token with an issuer and nothing else. -/
def issuerOnly : Draft × String :=
  ((some "JWT", [("iss", .str "test")]),
    "eyJ0eXAiOiJKV1QiLCJhbGciOiJub25lIn0.eyJpc3MiOiJ0ZXN0In0.")

def Claim.text? : Claim → Option String
  | .str s => some s
  | _ => none

def Claim.dump? : Claim → Option String
  | .int n => some (toString n)
  | _ => none

/-- The getters, on the drafts of a table. -/
def tableGetters (C : Clock) (table : List (Draft × String)) : Getters (tableJwt C table) where
  getIssuer d := (d.2.lookup "iss").bind Claim.text?
  getIssuedAt d := ((d.2.lookup "iat").bind Claim.date?).map C.date
  getExpiresAt d := ((d.2.lookup "exp").bind Claim.date?).map C.date
  getAudience d := ((d.2.lookup "aud").bind Claim.text?).map ([·])
  getPayloadJson d := d.2.map fun p => ⟨p.1, p.2.text?, p.2.dump?⟩

/-- **Parsing is not all or nothing.** A token with an issuer alone is
refused, and its issuer stays in `info`; the monthly license is parsed,
and parsed again has its serial number twice. -/
theorem parse_overwrites :
    let G := tableGetters nanos (issuerOnly :: licenses)
    let info : LicenseInfo := ⟨"issuer1", "harry", 0, 0, []⟩
    (parse G info issuerOnly.2 =
        (.error (.license .parseLicenseInfoFailed), { info with issuer := "test" }) ∧
      ¬ AllOrNothing G info issuerOnly.2) ∧
    (parse G (parse G .fresh monthlyToken).2 monthlyToken).2.claims =
        [("disk_sn", "S1"), ("disk_sn", "S1")] ∧
      ¬ AllOrNothing G .fresh monthlyToken := by
  intro G info
  have hrefused : parse G info issuerOnly.2 =
      (.error (.license .parseLicenseInfoFailed), { info with issuer := "test" }) := by
    decide +kernel
  have honce : (parse G .fresh monthlyToken).1 = .ok () ∧
      (parse G .fresh monthlyToken).2.claims = [("disk_sn", "S1")] := by
    decide +kernel
  have htwice : (parse G (parse G .fresh monthlyToken).2 monthlyToken).2.claims =
      [("disk_sn", "S1"), ("disk_sn", "S1")] := by
    decide +kernel
  refine ⟨⟨hrefused, fun h => ?_⟩, htwice, fun h => ?_⟩
  · have hsame := h.failed (.license .parseLicenseInfoFailed) (by rw [hrefused])
    rw [hrefused] at hsame
    exact absurd (congrArg LicenseInfo.issuer hsame) (by decide)
  · have hsame := congrArg LicenseInfo.claims (h.twice honce.1)
    rw [htwice, honce.2] at hsame
    cases hsame

end HighJump.Util.License
