/-
HighJump.Lib.Zlib — the streaming interface of zlib, and what its manual
promises about it.

A codec is a state and one function from (state, unread input, room for
output) to (answer, state, bytes read, bytes written). What a call does
is said against a `Format`: for every byte string, how much output it
already determines and whether it is unfinished, a complete member, or
broken. `InflateContract` is the manual's text in these terms: output
comes in order and as much as fits; input is left unread only for want of
room; `Z_STREAM_END` is answered when the member has been read and all of
it delivered, and again on every later call; a call that can neither read
nor write answers `Z_BUF_ERROR`.

`Feeding` is the invariant of every chunk loop over a decoder (what was
offered, what is unread, how much is due), and the `call_` lemmas say
what one call with room `w` does to it.
-/
import Mathlib.Data.List.Basic
import Mathlib.Data.List.Infix
import Mathlib.Algebra.Ring.Nat

namespace HighJump.Lib.Zlib

abbrev Bytes := List UInt8

/-! ## The interface -/

/-- The return codes. -/
inductive Ret where
  | ok | streamEnd | needDict | streamError | dataError | memError | bufError | versionError
  deriving DecidableEq, Repr

/-- Their values in `zlib.h`. -/
def Ret.value : Ret → Int
  | .ok => 0
  | .streamEnd => 1
  | .needDict => 2
  | .streamError => -2
  | .dataError => -3
  | .memError => -4
  | .bufError => -5
  | .versionError => -6

/-- `Z_NO_FLUSH`, `Z_FINISH`. -/
inductive Flush where
  | noFlush | finish
  deriving DecidableEq, Repr

/-- A `size_t` assigned to a `uInt`. -/
def toUInt (n : Nat) : Nat := n % 2 ^ 32

/-- What one call does: its answer, the new state, how many bytes of the
input it read and the bytes it wrote. -/
structure Call (σ : Type) where
  ret : Ret
  state : σ
  used : Nat
  out : Bytes

/-- `inflateInit2` and `inflate(.., Z_NO_FLUSH)`. -/
structure Inflater where
  State : Type
  init : Ret × State
  inflate : State → Bytes → Nat → Call State

/-- `deflateInit2` (level and memory level) and `deflate`. -/
structure Deflater where
  State : Type
  init : Int → Int → Ret × State
  deflate : State → Flush → Bytes → Nat → Call State

/-! ## Formats -/

/-- How far a byte string has come. -/
inductive Status where
  | more | done | bad
  deriving DecidableEq, Repr

/-- A compressed format: the status of a byte string and the output it
determines. Nothing after the end of a member, or after an error,
matters. -/
structure Format where
  status : Bytes → Status
  dec : Bytes → Bytes
  status_nil : status [] = .more
  dec_nil : dec [] = []
  dec_mono : ∀ s t, dec s <+: dec (s ++ t)
  status_stable : ∀ s t, status s ≠ .more → status (s ++ t) = status s
  dec_stable : ∀ s t, status s ≠ .more → dec (s ++ t) = dec s

/-- `z` is one complete member, and its content is `x`. -/
structure Format.Member (F : Format) (z x : Bytes) : Prop where
  done : F.status z = .done
  dec : F.dec z = x
  more : ∀ p, p <+: z → p ≠ z → F.status p = .more

/-- A member is not empty. -/
theorem Format.Member.ne_nil {F : Format} {z x : Bytes} (hz : F.Member z x) : z ≠ [] := by
  rintro rfl
  have h := hz.done
  rw [F.status_nil] at h
  cases h

/-- A start of a member is not broken. -/
theorem Format.Member.status_ne_bad {F : Format} {z x : Bytes} (hz : F.Member z x) {s t : Bytes}
    (hs : s ++ t = z) : F.status s ≠ .bad := by
  by_cases heq : s = z
  · rw [heq, hz.done]
    exact nofun
  · rw [hz.more s ⟨t, hs⟩ heq]
    exact nofun

/-- No member is the start of another. -/
theorem Format.Member.eq_of_isPrefix {F : Format} {z z' x x' : Bytes} (hz : F.Member z x)
    (hz' : F.Member z' x') (hpre : z <+: z') : z = z' := by
  by_contra hne
  have hmore := hz'.more z hpre hne
  rw [hz.done] at hmore
  cases hmore

/-! ## The contracts -/

/-- The contract of `inflate`. `At s c d`: in state `s` the bytes `c` have
been read and `d` written. -/
structure InflateContract (F : Format) (I : Inflater) where
  At : I.State → Bytes → Bytes → Prop
  /-- The parameters are valid and there is memory. -/
  init_ok : I.init.1 = .ok
  init : At I.init.2 [] []
  /-- A call reads from the front of its input and accounts for it. -/
  step : ∀ {s c d}, At s c d → ∀ i n, (I.inflate s i n).used ≤ i.length ∧
    At (I.inflate s i n).state (c ++ i.take (I.inflate s i n).used) (d ++ (I.inflate s i n).out)
  /-- It writes what comes next, as much as fits. -/
  out : ∀ {s c d}, At s c d → ∀ i n,
    (I.inflate s i n).out = ((F.dec (c ++ i)).drop d.length).take n
  /-- It leaves input of an unfinished member unread only for want of
  room. -/
  reads : ∀ {s c d}, At s c d → ∀ i n, F.status (c ++ i) = .more →
    (F.dec (c ++ i)).length ≤ d.length + n → (I.inflate s i n).used = i.length
  /-- It reads a complete member to its end once all of it fits. -/
  ends : ∀ {s c d}, At s c d → ∀ i n, F.status (c ++ i) = .done →
    (F.dec (c ++ i)).length ≤ d.length + n →
    F.status (c ++ i.take (I.inflate s i n).used) = .done
  /-- While output is due or the member is unfinished it answers by
  progress. -/
  progress : ∀ {s c d}, At s c d → ∀ i n,
    d.length + n < (F.dec (c ++ i)).length ∨ F.status (c ++ i) = .more →
    (I.inflate s i n).ret
      = if (I.inflate s i n).used = 0 ∧ (I.inflate s i n).out = [] then .bufError else .ok
  streamEnd : ∀ {s c d}, At s c d → ∀ i n, F.status (c ++ i) = .done →
    (F.dec (c ++ i)).length ≤ d.length + n → (I.inflate s i n).ret = .streamEnd
  /-- It meets an error with room to spare. -/
  dataError : ∀ {s c d}, At s c d → ∀ i n, F.status (c ++ i) = .bad →
    (F.dec (c ++ i)).length < d.length + n → (I.inflate s i n).ret = .dataError
  /-- With no room beyond what comes before the error it may not have
  looked at it yet. -/
  full : ∀ {s c d}, At s c d → ∀ i n, F.status (c ++ i) = .bad →
    (F.dec (c ++ i)).length = d.length + n →
    (I.inflate s i n).ret = .dataError ∨ (I.inflate s i n).ret
      = if (I.inflate s i n).used = 0 ∧ (I.inflate s i n).out = [] then .bufError else .ok

/-- Where a compression stands: `Z_FINISH` not yet asked for, asked for
with `rest` still to be read, or answered with `Z_STREAM_END`. -/
inductive Phase where
  | writing
  | finishing (rest : Bytes)
  | done

/-- Which calls the manual allows: once `Z_FINISH` was asked for, only it,
and no new input. -/
def Phase.Allows : Phase → Flush → Bytes → Prop
  | .writing, _, _ => True
  | .finishing rest, flush, i => flush = .finish ∧ i = rest
  | .done, flush, i => flush = .finish ∧ i = []

/-- Before `Z_FINISH` is asked for the compression is writing. -/
theorem Phase.Allows.writing {ph : Phase} {i : Bytes} (h : ph.Allows .noFlush i) :
    ph = .writing := by
  cases ph with
  | writing => rfl
  | finishing rest => cases h.1
  | done => cases h.1

/-- The phase after a call. -/
def Phase.after {σ : Type} (flush : Flush) (i : Bytes) (r : Call σ) : Phase :=
  if r.ret = .streamEnd then .done
  else if flush = .finish then .finishing (i.drop r.used)
  else .writing

/-- The contract of `deflate`. `At s c o ph`: in state `s` the bytes `c`
have been read and `o` written, and the compression is in phase `ph`. -/
structure DeflateContract (F : Format) (D : Deflater) where
  At : D.State → Bytes → Bytes → Phase → Prop
  init : ∀ lvl mem, (D.init lvl mem).1 = .ok → At (D.init lvl mem).2 [] [] .writing
  /-- A call reads from the front of its input, writes no more than fits,
  and answers one of three codes. -/
  step : ∀ {s c o ph}, At s c o ph → ∀ flush i n, ph.Allows flush i →
    (D.deflate s flush i n).used ≤ i.length ∧ (D.deflate s flush i n).out.length ≤ n ∧
    ((D.deflate s flush i n).ret = .ok ∨ (D.deflate s flush i n).ret = .bufError ∨
      (D.deflate s flush i n).ret = .streamEnd) ∧
    At (D.deflate s flush i n).state (c ++ i.take (D.deflate s flush i n).used)
      (o ++ (D.deflate s flush i n).out) (Phase.after flush i (D.deflate s flush i n))
  /-- It leaves input unread only for want of room. -/
  reads : ∀ {s c o ph}, At s c o ph → ∀ flush i n, ph.Allows flush i →
    (D.deflate s flush i n).out.length < n → (D.deflate s flush i n).used = i.length
  /-- `Z_FINISH` with room to spare completes the member. -/
  finishes : ∀ {s c o ph}, At s c o ph → ∀ i n, ph.Allows .finish i →
    (D.deflate s .finish i n).out.length < n → (D.deflate s .finish i n).ret = .streamEnd
  /-- `Z_STREAM_END` is answered only to `Z_FINISH`, with all input read
  and the member written. -/
  streamEnd : ∀ {s c o ph}, At s c o ph → ∀ flush i n, ph.Allows flush i →
    (D.deflate s flush i n).ret = .streamEnd → flush = .finish ∧
      (D.deflate s flush i n).used = i.length ∧ F.Member (o ++ (D.deflate s flush i n).out) (c ++ i)
  /-- `deflateBound`. -/
  bound : Nat → Nat
  bounded : ∀ {s c o ph}, At s c o ph → ∀ n, c.length ≤ n → o.length ≤ bound n

/-! ## A decoder fed piece by piece -/

variable {F : Format} {I : Inflater}

/-- Two byte strings no continuation can tell apart. -/
def Format.Same (F : Format) (s t : Bytes) : Prop :=
  ∀ j, F.status (s ++ j) = F.status (t ++ j) ∧ F.dec (s ++ j) = F.dec (t ++ j)

theorem Format.Same.status {s t : Bytes} (h : F.Same s t) : F.status s = F.status t := by
  simpa using (h []).1

theorem Format.Same.dec {s t : Bytes} (h : F.Same s t) : F.dec s = F.dec t := by
  simpa using (h []).2

theorem Format.Same.append {s t : Bytes} (h : F.Same s t) (j : Bytes) :
    F.Same (s ++ j) (t ++ j) := by
  intro k
  simpa using h (j ++ k)

/-- Nothing after the end of a member matters. -/
theorem Format.same_of_stable {s : Bytes} (h : F.status s ≠ .more) (t : Bytes) :
    F.Same s (s ++ t) := by
  intro j
  rw [F.status_stable s j h, F.dec_stable s j h, List.append_assoc, F.status_stable s _ h,
    F.dec_stable s _ h]
  exact ⟨rfl, rfl⟩

/-- The decoder has been offered `T`, of which `i` is still unread, and
`m` bytes of output are still due. -/
def Feeding (K : InflateContract F I) (T : Bytes) (s : I.State) (i : Bytes) (m : Nat) : Prop :=
  ∃ c d, K.At s c d ∧ F.Same (c ++ i) T ∧ d <+: F.dec T ∧ d.length + m = (F.dec T).length

variable {K : InflateContract F I}

theorem feeding_init (K : InflateContract F I) : Feeding K [] I.init.2 [] 0 :=
  ⟨[], [], K.init, fun _ => ⟨rfl, rfl⟩, List.nil_prefix, by simp [F.dec_nil]⟩

/-- Offering the next piece to a decoder that owes nothing. -/
theorem Feeding.offer {T : Bytes} {s : I.State} (h : Feeding K T s [] 0) (j : Bytes) :
    Feeding K (T ++ j) s j ((F.dec (T ++ j)).length - (F.dec T).length) := by
  obtain ⟨c, d, hat, hsame, hpre, hlen⟩ := h
  rw [List.append_nil] at hsame
  have hmono := F.dec_mono T j
  have hle := hmono.length_le
  exact ⟨c, d, hat, hsame.append j, hpre.trans hmono, by omega⟩

/-- What has been written after a call is still the start of what is
due. -/
theorem prefix_call_out {T c d i : Bytes} {s : I.State} (hat : K.At s c d)
    (hsame : F.Same (c ++ i) T) (hpre : d <+: F.dec T) (w : Nat) :
    d ++ (I.inflate s i w).out <+: F.dec T := by
  have hd : d = (F.dec T).take d.length := List.prefix_iff_eq_take.mp hpre
  rw [K.out hat, hsame.dec]
  conv => lhs; lhs; rw [hd]
  rw [← List.take_add]
  exact List.take_prefix _ _

section Call

variable {T : Bytes} {s : I.State} {i : Bytes} {m : Nat} (h : Feeding K T s i m) (w : Nat)

include h

/-- A call writes what is due, as much as fits. -/
theorem call_out :
    (I.inflate s i w).out = ((F.dec T).drop ((F.dec T).length - m)).take w := by
  obtain ⟨c, d, hat, hsame, -, hlen⟩ := h
  rw [K.out hat, hsame.dec]
  congr 2
  omega

theorem length_call_out : (I.inflate s i w).out.length = min w m := by
  have hle : m ≤ (F.dec T).length := by
    obtain ⟨c, d, -, -, -, hlen⟩ := h
    omega
  rw [call_out h, List.length_take, List.length_drop]
  omega

/-- What was due is what it wrote and what is due then. -/
theorem call_out_append :
    (I.inflate s i w).out ++ (F.dec T).drop ((F.dec T).length - (m - w))
      = (F.dec T).drop ((F.dec T).length - m) := by
  have hle : m ≤ (F.dec T).length := by
    obtain ⟨c, d, -, -, -, hlen⟩ := h
    omega
  rw [call_out h]
  by_cases hm : w ≤ m
  · have hsplit : (F.dec T).length - (m - w) = (F.dec T).length - m + w := by omega
    rw [hsplit, ← List.drop_drop, List.take_append_drop]
  · have hsub : m - w = 0 := by omega
    rw [hsub, Nat.sub_zero, List.drop_length, List.append_nil, List.take_of_length_le]
    rw [List.length_drop]
    omega

/-- It moves on by what it wrote. -/
theorem call_step :
    Feeding K T (I.inflate s i w).state (i.drop (I.inflate s i w).used) (m - w) := by
  have hlo := length_call_out h w
  obtain ⟨c, d, hat, hsame, hpre, hlen⟩ := h
  obtain ⟨-, hat'⟩ := K.step hat i w
  refine ⟨_, _, hat', ?_, prefix_call_out hat hsame hpre w, ?_⟩
  · rw [List.append_assoc, List.take_append_drop]
    exact hsame
  · rw [List.length_append, hlo]
    omega

/-- At an error, with all that comes before it due and no more room, it
answers that or `Z_OK`. -/
theorem call_bad (hw : 0 < w) (hm : w ≤ m) (hst : F.status T = .bad) :
    (I.inflate s i w).ret = .dataError ∨ (I.inflate s i w).ret = .ok := by
  have hlo := length_call_out h w
  obtain ⟨c, d, hat, hsame, -, hlen⟩ := h
  have hout : ¬ ((I.inflate s i w).used = 0 ∧ (I.inflate s i w).out = []) := by
    rintro ⟨-, hnil⟩
    rw [hnil, List.length_nil] at hlo
    omega
  rcases Nat.eq_or_lt_of_le hm with heq | hlt
  · have hfull := K.full hat i w (hsame.status.trans hst) (by rw [hsame.dec]; omega)
    rwa [if_neg hout] at hfull
  · rw [K.progress hat i w (.inl (by rw [hsame.dec]; omega)), if_neg hout]
    exact .inr rfl

theorem call_dataError (hm : m < w) (hst : F.status T = .bad) :
    (I.inflate s i w).ret = .dataError := by
  obtain ⟨c, d, hat, hsame, -, hlen⟩ := h
  exact K.dataError hat i w (hsame.status.trans hst) (by rw [hsame.dec]; omega)

/-- With more due than fits it answers `Z_OK`. -/
theorem call_pending (hw : 0 < w) (hm : w < m) : (I.inflate s i w).ret = .ok := by
  have hlo := length_call_out h w
  obtain ⟨c, d, hat, hsame, -, hlen⟩ := h
  rw [K.progress hat i w (.inl (by rw [hsame.dec]; omega)), if_neg]
  rintro ⟨-, hout⟩
  rw [hout, List.length_nil] at hlo
  omega

variable (hm : m ≤ w)

include hm

/-- A call with room for all that is due writes it. -/
theorem call_out_all : (I.inflate s i w).out = (F.dec T).drop ((F.dec T).length - m) := by
  have hout := call_out_append h w
  have hsub : m - w = 0 := by omega
  rwa [hsub, Nat.sub_zero, List.drop_length, List.append_nil] at hout

theorem call_streamEnd (hst : F.status T = .done) : (I.inflate s i w).ret = .streamEnd := by
  obtain ⟨c, d, hat, hsame, -, hlen⟩ := h
  exact K.streamEnd hat i w (hsame.status.trans hst) (by rw [hsame.dec]; omega)

/-- On an unfinished member it reads everything, and its answer says
whether it did anything at all. -/
theorem call_more (hst : F.status T = .more) :
    i.drop (I.inflate s i w).used = [] ∧
      (I.inflate s i w).ret = if i = [] ∧ m = 0 then .bufError else .ok := by
  have hlo := length_call_out h w
  obtain ⟨c, d, hat, hsame, -, hlen⟩ := h
  have hused := K.reads hat i w (hsame.status.trans hst) (by rw [hsame.dec]; omega)
  refine ⟨by rw [hused]; exact List.drop_length, ?_⟩
  have hnil : (I.inflate s i w).out = [] ↔ m = 0 := by
    rw [← List.length_eq_zero_iff, hlo]; omega
  rw [K.progress hat i w (.inr (hsame.status.trans hst)), hused]
  exact if_congr (and_congr List.length_eq_zero_iff hnil) rfl rfl

/-- After it, a new piece can be offered. -/
theorem call_last (hst : F.status T ≠ .bad) : Feeding K T (I.inflate s i w).state [] 0 := by
  have hmore := call_more h w hm
  have hlo := length_call_out h w
  have hstep := call_step h w
  have hzero : m - w = 0 := by omega
  cases hT : F.status T with
  | more =>
    rw [(hmore hT).1, hzero] at hstep
    exact hstep
  | done =>
    -- what was read is the whole member; the unread rest does not matter
    obtain ⟨c, d, hat, hsame, hpre, hlen⟩ := h
    obtain ⟨-, hat'⟩ := K.step hat i w
    have hend := K.ends hat i w (hsame.status.trans hT) (by rw [hsame.dec]; omega)
    have hcut : F.Same (c ++ i.take (I.inflate s i w).used) T := by
      have hsplit := F.same_of_stable (s := c ++ i.take (I.inflate s i w).used) (by rw [hend]; simp)
        (i.drop (I.inflate s i w).used)
      rw [List.append_assoc, List.take_append_drop] at hsplit
      intro j
      exact ⟨(hsplit j).1.trans (hsame j).1, (hsplit j).2.trans (hsame j).2⟩
    refine ⟨_, _, hat', by rw [List.append_nil]; exact hcut, prefix_call_out hat hsame hpre w, ?_⟩
    rw [List.length_append, hlo]
    omega
  | bad => exact absurd hT hst

omit hm in
/-- Its answer, when the input is not broken. -/
theorem call_ret (hw : 0 < w) (hst : F.status T ≠ .bad) :
    (I.inflate s i w).ret = .ok ∨ (I.inflate s i w).ret = .bufError ∨
      (I.inflate s i w).ret = .streamEnd := by
  by_cases hm : w < m
  · exact .inl (call_pending h w hw hm)
  · cases hT : F.status T with
    | more =>
      rw [(call_more h w (by omega) hT).2]
      split
      · exact .inr (.inl rfl)
      · exact .inl rfl
    | done => exact .inr (.inr (call_streamEnd h w (by omega) hT))
    | bad => exact absurd hT hst

end Call

/-! ## The contracts can be met -/

/-- A decoder that keeps what it read and how much it delivered. -/
def idealInflater (F : Format) : Inflater where
  State := Bytes × Nat
  init := (.ok, [], 0)
  inflate s i n :=
    let out := ((F.dec (s.1 ++ i)).drop s.2).take n
    { ret :=
        if s.2 + n < (F.dec (s.1 ++ i)).length ∨ F.status (s.1 ++ i) = .more then
          if i.length = 0 ∧ out = [] then .bufError else .ok
        else if F.status (s.1 ++ i) = .done then .streamEnd else .dataError
      state := (s.1 ++ i, s.2 + out.length)
      used := i.length
      out := out }

/-- Every format has a decoder that meets the contract. -/
def idealInflater_contract (F : Format) : InflateContract F (idealInflater F) where
  At s c d := s = (c, d.length)
  init_ok := rfl
  init := rfl
  step := by
    rintro s c d rfl i n
    refine ⟨Nat.le_refl _, ?_⟩
    simp [idealInflater]
  out := by rintro s c d rfl i n; rfl
  reads := by rintro s c d rfl i n _ _; rfl
  ends := by
    rintro s c d rfl i n hst _
    simpa [idealInflater] using hst
  progress := by
    rintro s c d rfl i n h
    simp only [idealInflater]
    rw [if_pos h]
  streamEnd := by
    rintro s c d rfl i n hst hle
    simp only [idealInflater]
    rw [if_neg (by rw [hst]; simp; omega), if_pos hst]
  dataError := by
    rintro s c d rfl i n hst hle
    simp only [idealInflater]
    rw [if_neg (by rw [hst]; simp; omega), if_neg (by rw [hst]; simp)]
  full := by
    rintro s c d rfl i n hst heq
    simp only [idealInflater]
    rw [if_neg (by rw [hst]; simp; omega), if_neg (by rw [hst]; simp)]
    exact .inl rfl

/-- An encoder that writes nothing before `Z_FINISH`; it keeps what it read
and how much it wrote. -/
def idealDeflater (enc : Bytes → Bytes) : Deflater where
  State := Bytes × Nat
  init _ _ := (.ok, [], 0)
  deflate s flush i n :=
    match flush with
    | .noFlush =>
        { ret := if i = [] then .bufError else .ok
          state := (s.1 ++ i, s.2)
          used := i.length
          out := [] }
    | .finish =>
        let out := ((enc (s.1 ++ i)).drop s.2).take n
        { ret :=
            if (enc (s.1 ++ i)).length ≤ s.2 + n then .streamEnd
            else if i = [] ∧ out = [] then .bufError else .ok
          state := (s.1 ++ i, s.2 + out.length)
          used := i.length
          out := out }

section IdealDeflater

variable {enc : Bytes → Bytes}

/-- What `idealDeflater` has read and written in each phase. -/
def IdealAt (enc : Bytes → Bytes) (s : Bytes × Nat) (c o : Bytes) : Phase → Prop
  | .writing => s = (c, o.length) ∧ o = []
  | .finishing rest => s = (c, o.length) ∧ rest = [] ∧ o <+: enc c
  | .done => s = (c, o.length) ∧ o = enc c

/-- A call with `Z_FINISH` finds a start of the member written. -/
theorem IdealAt.finish {s : Bytes × Nat} {c o i : Bytes} {ph : Phase} (h : IdealAt enc s c o ph)
    (ha : ph.Allows .finish i) : s = (c, o.length) ∧ o <+: enc (c ++ i) := by
  cases ph with
  | writing => exact ⟨h.1, by rw [h.2]; exact List.nil_prefix⟩
  | finishing rest =>
    obtain ⟨hs, rfl, hpre⟩ := h
    rw [ha.2, List.append_nil]
    exact ⟨hs, hpre⟩
  | done =>
    rw [ha.2, List.append_nil, ← h.2]
    exact ⟨h.1, List.prefix_refl _⟩

theorem length_prefix_add_take {o m : Bytes} (n : Nat) (h : o <+: m) :
    o ++ (m.drop o.length).take n = m.take (o.length + n) := by
  have ho : o = m.take o.length := List.prefix_iff_eq_take.mp h
  conv => lhs; lhs; rw [ho]
  rw [← List.take_add]

/-- After a call with `Z_FINISH` the member is written if it fits, and a
start of it if not. -/
theorem IdealAt.after {s : Bytes × Nat} {c o i : Bytes} {ph : Phase} (h : IdealAt enc s c o ph)
    (ha : ph.Allows .finish i) (n : Nat) :
    IdealAt enc ((idealDeflater enc).deflate s .finish i n).state (c ++ i)
      (o ++ ((idealDeflater enc).deflate s .finish i n).out)
      (Phase.after .finish i ((idealDeflater enc).deflate s .finish i n)) := by
  obtain ⟨rfl, hpre⟩ := h.finish ha
  have hout := length_prefix_add_take n hpre
  simp only [idealDeflater, Phase.after]
  by_cases hfit : (enc (c ++ i)).length ≤ o.length + n
  · rw [if_pos hfit, if_pos rfl]
    refine ⟨by simp, ?_⟩
    rw [hout, List.take_of_length_le hfit]
  · have hret : (if i = [] ∧ ((enc (c ++ i)).drop o.length).take n = [] then Ret.bufError else .ok)
        ≠ .streamEnd := by split <;> simp
    rw [if_neg hfit, if_neg hret, if_pos trivial]
    refine ⟨by simp, by simp, ?_⟩
    rw [hout]
    exact List.take_prefix _ _

/-- Every encoder into a format gives a deflater that meets the
contract. -/
def idealDeflater_contract {F : Format} (henc : ∀ x, F.Member (enc x) x) (bound : Nat → Nat)
    (hbound : ∀ x n, x.length ≤ n → (enc x).length ≤ bound n) :
    DeflateContract F (idealDeflater enc) where
  At s c o ph := IdealAt enc s c o ph
  init _ _ _ := ⟨rfl, rfl⟩
  step := by
    intro s c o ph hat flush i n ha
    cases flush with
    | noFlush =>
      cases ph with
      | writing =>
        obtain ⟨rfl, rfl⟩ := hat
        refine ⟨Nat.le_refl _, Nat.zero_le _, ?_, ?_⟩
        · by_cases hi : i = [] <;> simp [idealDeflater, hi]
        · by_cases hi : i = [] <;> simp [idealDeflater, Phase.after, hi, IdealAt]
      | finishing rest => cases ha.1
      | done => cases ha.1
    | finish =>
      obtain ⟨rfl, hpre⟩ := IdealAt.finish hat ha
      refine ⟨Nat.le_refl _, ?_, ?_, ?_⟩
      · exact List.length_take_le _ _
      · simp only [idealDeflater]
        split
        · exact .inr (.inr rfl)
        · split
          · exact .inr (.inl rfl)
          · exact .inl rfl
      · have hafter := IdealAt.after hat ha n
        simpa [idealDeflater] using hafter
  reads := by
    intro s c o ph hat flush i n ha hlt
    cases flush <;> rfl
  finishes := by
    intro s c o ph hat i n ha hlt
    obtain ⟨rfl, hpre⟩ := IdealAt.finish hat ha
    simp only [idealDeflater, List.length_take, List.length_drop] at hlt ⊢
    rw [if_pos (by omega)]
  streamEnd := by
    intro s c o ph hat flush i n ha hret
    cases flush with
    | noFlush => by_cases hi : i = [] <;> simp [idealDeflater, hi] at hret
    | finish =>
      have hafter := IdealAt.after hat ha n
      rw [Phase.after, if_pos hret] at hafter
      refine ⟨rfl, rfl, ?_⟩
      rw [hafter.2]
      exact henc (c ++ i)
  bound := bound
  bounded := by
    intro s c o ph hat n hn
    have hle : o.length ≤ (enc c).length := by
      cases ph with
      | writing => rw [hat.2]; simp
      | finishing rest => exact hat.2.2.length_le
      | done => rw [hat.2]
    exact hle.trans (hbound c n hn)

end IdealDeflater

end HighJump.Lib.Zlib
