/-
HighJump.Util.License — `detail::issue` and `detail::verify` of
`hj/util/license.hpp`.

A license is a JSON web token. What builds, signs, decodes and verifies
one is jwt-cpp, which is a parameter here: `Jwt` is the part of it that is
called, and `Jwt.Documented` what it says it does. The registered claims
and the caller's own live in one payload, by name; the last to set a name
has it.

Times are ticks of `system_clock`. Its representation is 64 bits and
signed, so the expiry may overflow.
-/
import HighJump.Lib.MachineInt
import Mathlib.Logic.Function.Basic
import Mathlib.Tactic.MkIffOfInductiveProp

namespace HighJump.Util.License

open HighJump.Lib

/-! ## Errors -/

/-- `sign_algo`. -/
inductive SignAlgo where
  | none
  | rsa256
  deriving DecidableEq

/-- `error_code`, as far as it is returned here. -/
inductive ErrorCode where
  | invalidTimes
  | claimMismatch
  | keysNotChanged
  | keysNotEnough
  | fileNotExist
  | inputStreamInvalid
  | outputStreamInvalid
  | parseLicenseInfoFailed
  deriving DecidableEq

/-- `err_t`: a code of the license category, or one of jwt-cpp's. -/
inductive Err where
  | license (e : ErrorCode)
  | jwt (code : Nat)
  deriving DecidableEq

/-- What a call ends with. An exception is not caught here, and a signed
overflow is nothing to go on from. -/
inductive Outcome (α : Type) where
  | ok (a : α)
  | error (e : Err)
  | throws
  | overflow
  deriving DecidableEq

/-! ## Time -/

/-- `system_clock`: how many ticks a second has. -/
structure Clock where
  ticks : Nat
  pos : 0 < ticks

/-- The representation of durations and time points. -/
def rep : IntType := ⟨.w64, true⟩

/-- `std::chrono::seconds(n)`: a `size_t` in the signed representation. -/
def durationCount (n : Nat) : Int := if n < 2 ^ 63 then n else n - 2 ^ 64

namespace Clock

variable (C : Clock)

/-- `t + std::chrono::seconds(n)`: the seconds are scaled to ticks and
added. -/
def addSecs (t : Int) (n : Nat) : Option Int :=
  let s := durationCount n
  if rep.Mem (s * C.ticks) ∧ rep.Mem (t + s * C.ticks) then some (t + s * C.ticks) else none

/-- The whole seconds of a time point, towards zero. -/
def seconds (t : Int) : Int := t.tdiv C.ticks

/-- The time point of a number of seconds. -/
def date (n : Int) : Int := n * C.ticks

end Clock

/-! ## jwt-cpp -/

/-- `jwt::basic_claim`. Text and whole numbers are written here, anything
may be read: a floating-point number is what it rounds to, an array its
elements where all of them are text. -/
inductive Claim where
  | str (s : String)
  | int (n : Int)
  | number (rounded : Int)
  | array (texts : Option (List String))
  | other
  deriving DecidableEq

/-- `as_date()`, in seconds: any number is a date, and nothing else. -/
def Claim.date? : Claim → Option Int
  | .int n => some n
  | .number n => some n
  | _ => none

/-- What a token says: the type in its header and the claims of its
payload. -/
@[ext]
structure Content where
  typ : Option String
  claims : String → Option Claim

/-- A later claim replaces an earlier one of its name. -/
def Content.set (c : Content) (name : String) (v : Claim) : Content :=
  { c with claims := Function.update c.claims name (some v) }

/-- `jwt::algorithm`. -/
inductive Algorithm where
  | none
  | rs256 (publicKey privateKey publicKeyPassword privateKeyPassword : String)
  deriving DecidableEq

/-- `jwt::verifier` as it is set up here. -/
structure Verifier where
  typ : String
  issuer : String
  audience : String
  leeway : Nat
  algorithm : Algorithm

/-- jwt-cpp. `sign` and `verify` begin with the keys of their algorithm,
which may throw too. `content` and `read` are what a builder and a decoded
token hold, `signed` whether the verifier's algorithm is the token's and
its signature is right. -/
structure Jwt where
  Builder : Type
  Token : Type
  Decoded : Type
  create : Builder
  setType : Builder → String → Builder
  setIssuer : Builder → String → Builder
  setAudience : Builder → String → Builder
  setIssuedAt : Builder → Int → Builder
  setExpiresAt : Builder → Int → Builder
  setPayloadClaim : Builder → String → Claim → Builder
  sign : Builder → Algorithm → Outcome Token
  decode : Token → Outcome Decoded
  verify : Verifier → Int → Decoded → Outcome Unit
  content : Builder → Content
  read : Decoded → Content
  signed : Algorithm → Decoded → Prop

/-- `exp` is not over, with leeway, or there is none. What is not a date
throws. -/
def NotExpired (C : Clock) (leeway : Nat) (now : Int) : Option Claim → Prop
  | none => True
  | some c =>
      match c.date? with
      | none => False
      | some n =>
          let l := C.date (durationCount leeway)
          rep.Mem (C.date n) ∧ rep.Mem l ∧ rep.Mem (C.date n + l) ∧ now ≤ C.date n + l

/-- `iat` or `nbf` has come, with leeway, or there is none. -/
def Begun (C : Clock) (leeway : Nat) (now : Int) : Option Claim → Prop
  | none => True
  | some c =>
      match c.date? with
      | none => False
      | some n =>
          let l := C.date (durationCount leeway)
          rep.Mem (C.date n) ∧ rep.Mem l ∧ rep.Mem (C.date n - l) ∧ C.date n - l ≤ now

/-- `aud` is the audience, or an array of text that has it. -/
def ForAudience (audience : String) : Option Claim → Prop
  | some (.str s) => s = audience
  | some (.array (some texts)) => audience ∈ texts
  | _ => False

/-- What a verifier asks of a token's content. -/
@[mk_iff]
structure Accepts (C : Clock) (v : Verifier) (now : Int) (c : Content) : Prop where
  typ : c.typ.map String.toLower = some v.typ.toLower
  issuer : c.claims "iss" = some (.str v.issuer)
  audience : ForAudience v.audience (c.claims "aud")
  expires : NotExpired C v.leeway now (c.claims "exp")
  issued : Begun C v.leeway now (c.claims "iat")
  notBefore : Begun C v.leeway now (c.claims "nbf")

instance (C : Clock) (leeway : Nat) (now : Int) :
    ∀ c, Decidable (NotExpired C leeway now c)
  | none => inferInstanceAs (Decidable True)
  | some (.int _) => inferInstanceAs (Decidable (_ ∧ _))
  | some (.number _) => inferInstanceAs (Decidable (_ ∧ _))
  | some (.str _) => inferInstanceAs (Decidable False)
  | some (.array _) => inferInstanceAs (Decidable False)
  | some .other => inferInstanceAs (Decidable False)

instance (C : Clock) (leeway : Nat) (now : Int) : ∀ c, Decidable (Begun C leeway now c)
  | none => inferInstanceAs (Decidable True)
  | some (.int _) => inferInstanceAs (Decidable (_ ∧ _))
  | some (.number _) => inferInstanceAs (Decidable (_ ∧ _))
  | some (.str _) => inferInstanceAs (Decidable False)
  | some (.array _) => inferInstanceAs (Decidable False)
  | some .other => inferInstanceAs (Decidable False)

instance (audience : String) : ∀ c, Decidable (ForAudience audience c)
  | some (.str _) => inferInstanceAs (Decidable (_ = _))
  | some (.array (some _)) => inferInstanceAs (Decidable (_ ∈ _))
  | some (.array none) => inferInstanceAs (Decidable False)
  | some (.int _) => inferInstanceAs (Decidable False)
  | some (.number _) => inferInstanceAs (Decidable False)
  | some .other => inferInstanceAs (Decidable False)
  | none => inferInstanceAs (Decidable False)

instance (C : Clock) (v : Verifier) (now : Int) (c : Content) : Decidable (Accepts C v now c) :=
  decidable_of_iff _ (accepts_iff C v now c).symm

/-- **What jwt-cpp says it does.** A builder starts empty; the setters of
the registered claims set those names, dates in whole seconds; a verifier
passes a token whose signature is right and whose content it accepts, and
no other. -/
structure Jwt.Documented (J : Jwt) (C : Clock) : Prop where
  create : J.content J.create = ⟨none, fun _ => none⟩
  setType : ∀ b s, J.content (J.setType b s) = { J.content b with typ := some s }
  setIssuer : ∀ b s, J.content (J.setIssuer b s) = (J.content b).set "iss" (.str s)
  setAudience : ∀ b s, J.content (J.setAudience b s) = (J.content b).set "aud" (.str s)
  setIssuedAt : ∀ b t, J.content (J.setIssuedAt b t) = (J.content b).set "iat" (.int (C.seconds t))
  setExpiresAt : ∀ b t,
    J.content (J.setExpiresAt b t) = (J.content b).set "exp" (.int (C.seconds t))
  setPayloadClaim : ∀ b name v, J.content (J.setPayloadClaim b name v) = (J.content b).set name v
  verify : ∀ v now d,
    J.verify v now d = .ok () ↔ J.signed v.algorithm d ∧ Accepts C v now (J.read d)

/-! ## Issuing and verifying -/

/-- `JWT_TYPE`. -/
def jwtType : String := "JWT"

/-- What is passed to `detail::issue`. -/
structure Request where
  issuer : String
  licensee : String
  issueTm : Int
  validSecs : Nat
  algo : SignAlgo
  keys : List String
  claims : List (String × String)

/-- The keys `detail::issue` signs with, where there are enough. -/
def signer (algo : SignAlgo) (keys : List String) : Option Algorithm :=
  match algo, keys with
  | .none, _ => some .none
  | .rsa256, publicKey :: privateKey :: rest =>
      some (.rs256 publicKey privateKey (rest.getD 0 "") (rest.getD 1 ""))
  | .rsa256, _ => none

/-- The keys `detail::verify` verifies with. -/
def checker (algo : SignAlgo) (keys : List String) : Option Algorithm :=
  match algo, keys with
  | .none, _ => some .none
  | .rsa256, publicKey :: rest =>
      some (.rs256 publicKey (rest.getD 0 "") (rest.getD 1 "") (rest.getD 2 ""))
  | .rsa256, [] => none

variable (J : Jwt) (C : Clock)

/-- The builder with everything set, for an expiry of `expires`. -/
def Request.builder (r : Request) (expires : Int) : J.Builder :=
  let lic := J.setType J.create jwtType
  let lic := J.setIssuer lic r.issuer
  let lic := J.setAudience lic r.licensee
  let lic := J.setIssuedAt lic r.issueTm
  let lic := J.setExpiresAt lic expires
  r.claims.foldl (fun lic p => J.setPayloadClaim lic p.1 (.str p.2)) lic

/-- `detail::issue`. -/
def issue (r : Request) : Outcome J.Token :=
  match C.addSecs r.issueTm r.validSecs with
  | none => .overflow
  | some expires =>
      match signer r.algo r.keys with
      | none => .error (.license .keysNotEnough)
      | some algorithm => J.sign (r.builder J expires) algorithm

/-- The loop over the claims: `get_payload_claim` throws where there is
none, `as_string` where it is not text. -/
def checkClaims (c : Content) : List (String × String) → Outcome Unit
  | [] => .ok ()
  | (name, value) :: rest =>
      match c.claims name with
      | some (.str s) => if s = value then checkClaims c rest else .error (.license .claimMismatch)
      | _ => .throws

/-- `leeway_secs` where it is not given. -/
def defaultLeeway : Nat := 5

/-- `detail::verify`, at the time `now`. -/
def verify (token : J.Token) (issuer licensee : String) (algo : SignAlgo) (keys : List String)
    (claims : List (String × String)) (leeway : Nat) (now : Int) : Outcome Unit :=
  match J.decode token with
  | .error e => .error e
  | .throws => .throws
  | .overflow => .overflow
  | .ok decoded =>
      match checker algo keys with
      | none => .error (.license .keysNotEnough)
      | some algorithm =>
          match J.verify ⟨jwtType, issuer, licensee, leeway, algorithm⟩ now decoded with
          | .ok () => checkClaims (J.read decoded) claims
          | failed => failed

end HighJump.Util.License
