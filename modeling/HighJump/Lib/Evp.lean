/-
HighJump.Lib.Evp — the `EVP_CIPHER_CTX` calls of OpenSSL, and what the
manual promises about a session of them.

A context is opaque. What a call does is said against an `Algorithm` (a
pure function from key, iv and everything fed so far to everything put
out so far) and a ghost `Phase`: which cipher was chosen, which iv length
is in force, what key, iv and data the context has taken. `Serves` is the
manual in these terms. Three of its clauses are easy to overlook and
decide theorems elsewhere:

* a call of `EVP_*Init_ex` that names a cipher starts the context over,
  with the cipher's default parameters ("the remaining parameters in
  subsequent calls, all of which have type set to NULL"), so an iv length
  set before it is lost (`init_again`);
* the iv argument has no length: as many bytes are read as the iv length
  in force says, past the caller's buffer if it is shorter
  (`init_short`, `init_again_short`);
* decryption of an authenticated mode ends well exactly when a tag was
  set and is the right one (`final_ok`, `final_err`).

`reference` is the least context that keeps the contract: it stores its
own phase.
-/
import HighJump.Lib.Memory
import Mathlib.Algebra.Ring.Nat

namespace HighJump.Lib.Evp

abbrev Bytes := List UInt8

/-! ## The interface -/

/-- How a call ended: it returned 1 (with what it gives back), it returned
something else, or it left the buffers it was given. -/
inductive Call (α : Type) where
  | ret (a : α)
  | err
  | ub
  deriving DecidableEq, Repr

/-- `if(call != 1) fail; rest`, where `none` is leaving defined
behaviour. -/
def Call.check {α β : Type} (call : Call α) (fail : Option β) (rest : α → Option β) : Option β :=
  match call with
  | .ub => none
  | .err => fail
  | .ret a => rest a

section Check

variable {α β : Type} (fail : Option β) (rest : α → Option β)

-- Not by `rfl`: a rewrite that unfolds nothing keeps the kernel out of the calls' arguments.
@[simp] theorem Call.check_ub : (Call.ub : Call α).check fail rest = none := by
  rw [Call.check]

@[simp] theorem Call.check_err : (Call.err : Call α).check fail rest = fail := by
  rw [Call.check]

@[simp] theorem Call.check_ret (a : α) : (Call.ret a).check fail rest = rest a := by
  rw [Call.check]

variable {fail rest} in
/-- A result that is not the one of a failed call comes from the rest. -/
theorem Call.exists_of_check {call : Call α} {b : β} (h : call.check fail rest = some b)
    (hne : fail ≠ some b) : ∃ a, call = .ret a ∧ rest a = some b := by
  cases call with
  | ret a => exact ⟨a, rfl, by rwa [Call.check_ret] at h⟩
  | err => exact absurd (by rwa [Call.check_err] at h) hne
  | ub => rw [Call.check_ub] at h; cases h

end Check

/-- `EVP_Encrypt*`, `EVP_Decrypt*`. -/
inductive Dir where
  | enc | dec
  deriving DecidableEq, Repr

/-- The calls, over a type of ciphers. -/
structure Api (C : Type) where
  Ctx : Type
  ctxNew : Option Ctx
  blockSize : C → Nat
  /-- `EVP_EncryptInit_ex`, `EVP_DecryptInit_ex`: cipher, key, iv. -/
  init : Dir → Ctx → Option C → Option Bytes → Option Bytes → Call Ctx
  setPadding : Ctx → Bool → Ctx
  /-- `EVP_CTRL_GCM_SET_IVLEN`. -/
  setIvLen : Ctx → Int → Call Ctx
  /-- `EVP_CTRL_GCM_SET_TAG`. -/
  setTag : Ctx → Bytes → Call Ctx
  /-- `EVP_CTRL_GCM_GET_TAG`. -/
  getTag : Ctx → Nat → Call Bytes
  update : Dir → Ctx → Bytes → Call (Ctx × Bytes)
  final : Dir → Ctx → Call (Ctx × Bytes)

/-- `EVP_*Update(ctx, .., buf, inl)`: a negative length is not a
length. -/
def Api.updateN {C : Type} (evp : Api C) (d : Dir) (ctx : evp.Ctx) (buf : Bytes) (inl : Int) :
    Call (evp.Ctx × Bytes) :=
  if inl < 0 then .ub
  else
    match readN buf 0 inl.toNat with
    | none => .ub
    | some xs => evp.update d ctx xs

/-! ## Algorithms -/

/-- A cipher as a pure function: what the updates have put out, in total,
after the data fed so far, with automatic padding off. -/
structure Algorithm where
  blockSize : Nat
  keyLen : Nat
  ivLen : Nat
  aead : Bool
  ivLenOk : Int → Bool
  enc : Bytes → Bytes → Bytes → Bytes
  dec : Bytes → Bytes → Bytes → Bytes
  /-- The tag of a plaintext. -/
  tag : Bytes → Bytes → Bytes → Bytes

/-- `enc` or `dec`. -/
def Algorithm.apply (a : Algorithm) : Dir → Bytes → Bytes → Bytes → Bytes
  | .enc => a.enc
  | .dec => a.dec

/-- What every cipher has: output comes in whole blocks as soon as they
are complete, in order, and the directions are inverse on whole blocks. -/
structure Algorithm.Lawful (a : Algorithm) : Prop where
  pos : 0 < a.blockSize
  grows : ∀ d k v x y, a.apply d k v x <+: a.apply d k v (x ++ y)
  length : ∀ d k v x, (a.apply d k v x).length = x.length / a.blockSize * a.blockSize
  dec_enc : ∀ k v x, a.blockSize ∣ x.length → a.dec k v (a.enc k v x) = x
  enc_dec : ∀ k v x, a.blockSize ∣ x.length → a.enc k v (a.dec k v x) = x
  length_tag : ∀ k v x, (a.tag k v x).length = 16
  ivLenOk_pos : ∀ n, a.ivLenOk n = true → 0 < n

namespace Algorithm.Lawful

variable {a : Algorithm}

/-- Whole blocks come out whole. -/
theorem length_of_dvd (h : a.Lawful) (d : Dir) (k v : Bytes) {x : Bytes}
    (hx : a.blockSize ∣ x.length) : (a.apply d k v x).length = x.length := by
  rw [h.length, Nat.div_mul_cancel hx]

theorem apply_nil (h : a.Lawful) (d : Dir) (k v : Bytes) : a.apply d k v [] = [] :=
  List.length_eq_zero_iff.mp (by rw [h.length]; simp)

theorem length_le (h : a.Lawful) (d : Dir) (k v x : Bytes) :
    (a.apply d k v x).length ≤ x.length := by
  rw [h.length]
  exact Nat.div_mul_le_self _ _

end Algorithm.Lawful

/-! ## The contract -/

/-- What a context is doing. -/
structure Work (C : Type) where
  dir : Dir
  cipher : C
  key : Bytes
  iv : Bytes
  padding : Bool
  tag : Option Bytes
  fed : Bytes
  deriving DecidableEq

/-- How far a session has come. -/
inductive Phase (C : Type) where
  | blank
  | chosen (c : C) (ivLen : Nat)
  | working (w : Work C)
  | finished (w : Work C)
  deriving DecidableEq

section Contract

variable {C : Type} (alg : C → Algorithm)

/-- Output is not held back for padding. -/
def Work.Direct (w : Work C) : Prop := w.padding = false ∨ (alg w.cipher).blockSize = 1

/-- What has come out so far. -/
def Work.out (w : Work C) : Bytes := (alg w.cipher).apply w.dir w.key w.iv w.fed

/-- A session that starts with this key and iv, with `n` bytes of iv
read. -/
def Work.start (d : Dir) (c : C) (key : Bytes) (iv : Option Bytes) (n : Nat) : Work C :=
  { dir := d, cipher := c, key, iv := (iv.getD []).take n, padding := true, tag := none, fed := [] }

/-- `EVP_*Final_ex` returns 1. -/
def Work.Ends (w : Work C) : Prop :=
  (alg w.cipher).blockSize ∣ w.fed.length ∧
    (w.dir = .dec → (alg w.cipher).aead = true →
      w.tag = some ((alg w.cipher).tag w.key w.iv ((alg w.cipher).dec w.key w.iv w.fed)))

/-- **The contract.** `At ctx p` says that the context is in phase `p`.
Sessions are started with the ciphers in `used` only; what a context makes
of another, which may have rules of its own, is left open. -/
structure Serves (evp : Api C) (used : C → Prop) (At : evp.Ctx → Phase C → Prop) : Prop where
  lawful : ∀ c, (alg c).Lawful
  blockSize : ∀ c, evp.blockSize c = (alg c).blockSize
  new : ∃ ctx, evp.ctxNew = some ctx ∧ At ctx .blank
  init_cipher : ∀ d ctx p c, used c → At ctx p →
    ∃ ctx', evp.init d ctx (some c) none none = .ret ctx' ∧ At ctx' (.chosen c (alg c).ivLen)
  init_key : ∀ d ctx c n key iv, At ctx (.chosen c n) → key.length = (alg c).keyLen →
    n ≤ (iv.getD []).length →
    ∃ ctx', evp.init d ctx none (some key) iv = .ret ctx' ∧
      At ctx' (.working (.start d c key iv n))
  init_short : ∀ d ctx c n key iv, At ctx (.chosen c n) → iv.length < n →
    evp.init d ctx none (some key) (some iv) = .ub
  init_again : ∀ d ctx p c key iv, used c → At ctx p → key.length = (alg c).keyLen →
    (alg c).ivLen ≤ (iv.getD []).length →
    ∃ ctx', evp.init d ctx (some c) (some key) iv = .ret ctx' ∧
      At ctx' (.working (.start d c key iv (alg c).ivLen))
  init_again_short : ∀ d ctx p c key iv, used c → At ctx p → iv.length < (alg c).ivLen →
    evp.init d ctx (some c) (some key) (some iv) = .ub
  setIvLen_ok : ∀ ctx c n (m : Int), At ctx (.chosen c n) → (alg c).aead = true →
    (alg c).ivLenOk m = true →
    ∃ ctx', evp.setIvLen ctx m = .ret ctx' ∧ At ctx' (.chosen c m.toNat)
  setIvLen_err : ∀ ctx c n (m : Int), At ctx (.chosen c n) → (alg c).aead = true →
    (alg c).ivLenOk m = false → evp.setIvLen ctx m = .err
  setPadding : ∀ ctx w b, At ctx (.working w) →
    At (evp.setPadding ctx b) (.working { w with padding := b })
  setTag : ∀ ctx w t, At ctx (.working w) → w.dir = .dec → (alg w.cipher).aead = true →
    t.length = 16 →
    ∃ ctx', evp.setTag ctx t = .ret ctx' ∧ At ctx' (.working { w with tag := some t })
  update : ∀ ctx w x, At ctx (.working w) → w.Direct alg → x.length < 2 ^ 31 →
    ∃ ctx' o, evp.update w.dir ctx x = .ret (ctx', o) ∧
      At ctx' (.working { w with fed := w.fed ++ x }) ∧
      Work.out alg { w with fed := w.fed ++ x } = w.out alg ++ o
  final_ok : ∀ ctx w, At ctx (.working w) → w.Direct alg → w.Ends alg →
    ∃ ctx', evp.final w.dir ctx = .ret (ctx', []) ∧ At ctx' (.finished w)
  final_err : ∀ ctx w, At ctx (.working w) → w.Direct alg → ¬ w.Ends alg →
    evp.final w.dir ctx = .err
  getTag : ∀ ctx w, At ctx (.finished w) → w.dir = .enc → (alg w.cipher).aead = true →
    evp.getTag ctx 16 = .ret ((alg w.cipher).tag w.key w.iv w.fed)

end Contract

/-! ## A context that keeps it -/

section Reference

variable {C : Type} (alg : C → Algorithm)

instance (w : Work C) : Decidable (w.Ends alg) :=
  inferInstanceAs (Decidable (_ ∧ (_ → _ → _)))

/-- Key and iv supplied to a context with a chosen cipher. -/
def keyed (d : Dir) (c : C) (n : Nat) (key : Bytes) (iv : Option Bytes) : Call (Phase C) :=
  if key.length ≠ (alg c).keyLen ∨ (iv.getD []).length < n then .ub
  else .ret (.working (.start d c key iv n))

/-- `EVP_*Init_ex` on a phase. -/
def initPhase (d : Dir) (p : Phase C) : Option C → Option Bytes → Option Bytes → Call (Phase C)
  | some c, none, _ => .ret (.chosen c (alg c).ivLen)
  | some c, some key, iv => keyed alg d c (alg c).ivLen key iv
  | none, some key, iv =>
      match p with
      | .chosen c n => keyed alg d c n key iv
      | _ => .err
  | none, none, _ => .err

/-- The context that is its own phase. -/
def reference : Api C where
  Ctx := Phase C
  ctxNew := some .blank
  blockSize c := (alg c).blockSize
  init := initPhase alg
  setPadding p b :=
    match p with
    | .working w => .working { w with padding := b }
    | p => p
  setIvLen p m :=
    match p with
    | .chosen c _ => if (alg c).ivLenOk m then .ret (.chosen c m.toNat) else .err
    | _ => .err
  setTag p t :=
    match p with
    | .working w => .ret (.working { w with tag := some t })
    | _ => .err
  getTag p _ :=
    match p with
    | .finished w => .ret ((alg w.cipher).tag w.key w.iv w.fed)
    | _ => .err
  update _ p x :=
    match p with
    | .working w =>
        let w' := { w with fed := w.fed ++ x }
        .ret (.working w', (w'.out alg).drop (w.out alg).length)
    | _ => .err
  final _ p :=
    match p with
    | .working w => if w.Ends alg then .ret (.finished w, []) else .err
    | _ => .err

theorem keyed_ok {c : C} {n : Nat} {key : Bytes} {iv : Option Bytes} (d : Dir)
    (hk : key.length = (alg c).keyLen) (hv : n ≤ (iv.getD []).length) :
    keyed alg d c n key iv = .ret (.working (.start d c key iv n)) := by
  refine if_neg ?_
  rintro (h | h)
  · exact h hk
  · omega

theorem keyed_short {c : C} {n : Nat} (key : Bytes) {iv : Bytes} (d : Dir) (hv : iv.length < n) :
    keyed alg d c n key (some iv) = .ub :=
  if_pos (.inr hv)

/-- **The reference context serves** every family of lawful
algorithms. -/
theorem reference_serves (h : ∀ c, (alg c).Lawful) (used : C → Prop) :
    Serves alg (reference alg) used Eq where
  lawful := h
  blockSize _ := rfl
  new := ⟨.blank, rfl, rfl⟩
  init_cipher _ _ _ _ _ _ := ⟨_, rfl, rfl⟩
  init_key := by
    rintro d _ c n key iv rfl hk hv
    exact ⟨_, keyed_ok alg d hk hv, rfl⟩
  init_short := by
    rintro d _ c n key iv rfl hv
    exact keyed_short alg key d hv
  init_again := by
    rintro d _ p c key iv - rfl hk hv
    exact ⟨_, keyed_ok alg d hk hv, rfl⟩
  init_again_short := by
    rintro d _ p c key iv - rfl hv
    exact keyed_short alg key d hv
  setIvLen_ok := by
    rintro _ c n m rfl _ hm
    exact ⟨_, if_pos hm, rfl⟩
  setIvLen_err := by
    rintro _ c n m rfl _ hm
    exact if_neg (by rw [hm]; exact Bool.false_ne_true)
  setPadding := by
    rintro _ w b rfl
    rfl
  setTag := by
    rintro _ w t rfl _ _ _
    exact ⟨_, rfl, rfl⟩
  update := by
    rintro _ w x rfl _ _
    refine ⟨_, _, rfl, rfl, ?_⟩
    have hpre := (h w.cipher).grows w.dir w.key w.iv w.fed x
    exact (List.prefix_iff_eq_append.mp hpre).symm
  final_ok := by
    rintro _ w rfl _ he
    exact ⟨_, if_pos he, rfl⟩
  final_err := by
    rintro _ w rfl _ he
    exact if_neg he
  getTag := by
    rintro _ w rfl _ _
    rfl

end Reference

/-! ## Algorithms by blocks and by keystream -/

/-- `f` on each of the first `n` blocks of `b` bytes. -/
def mapBlocks (f : Bytes → Bytes) (b : Nat) : Nat → Bytes → Bytes
  | 0, _ => []
  | n + 1, x => f (x.take b) ++ mapBlocks f b n (x.drop b)

section Blocks

variable {f g : Bytes → Bytes} {b : Nat}

theorem length_mapBlocks (hf : ∀ x, x.length = b → (f x).length = b) (n : Nat) :
    ∀ x : Bytes, n * b ≤ x.length → (mapBlocks f b n x).length = n * b := by
  induction n with
  | zero => intro x _; simp [mapBlocks]
  | succ n ih =>
    intro x hx
    rw [Nat.succ_mul] at hx ⊢
    have hhead : (f (x.take b)).length = b := hf _ (by rw [List.length_take]; omega)
    have htail := ih (x.drop b) (by rw [List.length_drop]; omega)
    rw [mapBlocks, List.length_append, hhead, htail, Nat.add_comm]

/-- Blocks that are there are not changed by what comes after them. -/
theorem mapBlocks_append (n : Nat) :
    ∀ x y : Bytes, n * b ≤ x.length → mapBlocks f b n (x ++ y) = mapBlocks f b n x := by
  induction n with
  | zero => intro x y _; rfl
  | succ n ih =>
    intro x y hx
    rw [Nat.succ_mul] at hx
    rw [mapBlocks, mapBlocks, List.take_append_of_le_length (by omega),
      List.drop_append_of_le_length (by omega), ih (x.drop b) y (by rw [List.length_drop]; omega)]

/-- The blocks of a longer run begin with those of a shorter one. -/
theorem mapBlocks_add (n m : Nat) :
    ∀ x : Bytes, mapBlocks f b (n + m) x = mapBlocks f b n x ++ mapBlocks f b m (x.drop (n * b)) := by
  induction n with
  | zero => intro x; simp [mapBlocks]
  | succ n ih =>
    intro x
    have hidx : b + n * b = (n + 1) * b := by rw [Nat.succ_mul, Nat.add_comm]
    rw [Nat.succ_add, mapBlocks, mapBlocks, ih, List.drop_drop, hidx, List.append_assoc]

/-- Inverse on a block, inverse on all of them. -/
theorem mapBlocks_inverse (hf : ∀ x, x.length = b → (f x).length = b)
    (hgf : ∀ x, x.length = b → g (f x) = x) (n : Nat) :
    ∀ x : Bytes, n * b = x.length → mapBlocks g b n (mapBlocks f b n x) = x := by
  induction n with
  | zero =>
    intro x hx
    rw [Nat.zero_mul] at hx
    rw [List.length_eq_zero_iff.mp hx.symm]
    rfl
  | succ n ih =>
    intro x hx
    rw [Nat.succ_mul] at hx
    have hlen : (x.take b).length = b := by rw [List.length_take]; omega
    rw [mapBlocks, mapBlocks, List.take_append_of_le_length (by rw [hf _ hlen]),
      List.take_of_length_le (by rw [hf _ hlen]), hgf _ hlen,
      List.drop_append_of_le_length (by rw [hf _ hlen]),
      List.drop_eq_nil_of_le (by rw [hf _ hlen]), List.nil_append,
      ih (x.drop b) (by rw [List.length_drop]; omega), List.take_append_drop]

end Blocks

/-- A cipher that maps blocks one by one. -/
def ofBlocks (b keyLen ivLen : Nat) (f g : Bytes → Bytes → Bytes) : Algorithm where
  blockSize := b
  keyLen := keyLen
  ivLen := ivLen
  aead := false
  ivLenOk _ := false
  enc k _ x := mapBlocks (f k) b (x.length / b) x
  dec k _ x := mapBlocks (g k) b (x.length / b) x
  tag _ _ _ := List.replicate 16 0

theorem ofBlocks_lawful {b : Nat} (hb : 0 < b) (keyLen ivLen : Nat) {f g : Bytes → Bytes → Bytes}
    (hf : ∀ k x, x.length = b → (f k x).length = b) (hg : ∀ k x, x.length = b → (g k x).length = b)
    (hgf : ∀ k x, x.length = b → g k (f k x) = x) (hfg : ∀ k x, x.length = b → f k (g k x) = x) :
    (ofBlocks b keyLen ivLen f g).Lawful := by
  have hlen (h : Bytes → Bytes) (hh : ∀ x, x.length = b → (h x).length = b) (x : Bytes) :
      (mapBlocks h b (x.length / b) x).length = x.length / b * b :=
    length_mapBlocks hh _ x (Nat.div_mul_le_self _ _)
  have hgrow (h : Bytes → Bytes) (x y : Bytes) :
      mapBlocks h b (x.length / b) x <+: mapBlocks h b ((x ++ y).length / b) (x ++ y) := by
    have hle : x.length / b ≤ (x ++ y).length / b :=
      Nat.div_le_div_right (by rw [List.length_append]; omega)
    obtain ⟨m, hm⟩ := Nat.exists_eq_add_of_le hle
    rw [hm, mapBlocks_add, mapBlocks_append _ x y (Nat.div_mul_le_self _ _)]
    exact List.prefix_append _ _
  have hinv (p q : Bytes → Bytes) (hp : ∀ x, x.length = b → (p x).length = b)
      (hqp : ∀ x, x.length = b → q (p x) = x) (x : Bytes) (hx : b ∣ x.length) :
      mapBlocks q b ((mapBlocks p b (x.length / b) x).length / b)
        (mapBlocks p b (x.length / b) x) = x := by
    rw [hlen p hp, Nat.mul_div_cancel _ hb]
    exact mapBlocks_inverse hp hqp _ x (Nat.div_mul_cancel hx)
  refine ⟨hb, ?_, ?_, ?_, ?_, fun _ _ _ => rfl, fun _ h => by cases h⟩
  · intro d k v x y
    cases d <;> exact hgrow _ x y
  · intro d k v x
    cases d
    · exact hlen _ (hf k) x
    · exact hlen _ (hg k) x
  · intro k v x hx
    exact hinv (f k) (g k) (hf k) (hgf k) x hx
  · intro k v x hx
    exact hinv (g k) (f k) (hg k) (hfg k) x hx

/-- A cipher that adds a keystream, and may have a tag. -/
def ofKeystream (keyLen ivLen : Nat) (aead : Bool) (ivLenOk : Int → Bool)
    (ks : Bytes → Bytes → Nat → UInt8) (tag : Bytes → Bytes → Bytes → Bytes) : Algorithm where
  blockSize := 1
  keyLen := keyLen
  ivLen := ivLen
  aead := aead
  ivLenOk := ivLenOk
  enc k v x := x.mapIdx fun i c => c ^^^ ks k v i
  dec k v x := x.mapIdx fun i c => c ^^^ ks k v i
  tag := tag

theorem ofKeystream_lawful (keyLen ivLen : Nat) (aead : Bool) {ivLenOk : Int → Bool}
    (ks : Bytes → Bytes → Nat → UInt8) {tag : Bytes → Bytes → Bytes → Bytes}
    (htag : ∀ k v x, (tag k v x).length = 16) (hiv : ∀ n, ivLenOk n = true → 0 < n) :
    (ofKeystream keyLen ivLen aead ivLenOk ks tag).Lawful := by
  have hinv (s : Nat → UInt8) (x : Bytes) :
      (x.mapIdx fun i c => c ^^^ s i).mapIdx (fun i c => c ^^^ s i) = x := by
    apply List.ext_getElem (by simp)
    intro i h1 h2
    simp only [List.getElem_mapIdx, UInt8.xor_assoc, UInt8.xor_self, UInt8.xor_zero]
  have hgrow (s : Nat → UInt8) (x y : Bytes) :
      (x.mapIdx fun i c => c ^^^ s i) <+: ((x ++ y).mapIdx fun i c => c ^^^ s i) := by
    rw [List.mapIdx_append]
    exact List.prefix_append _ _
  have hlen (s : Nat → UInt8) (x : Bytes) :
      (x.mapIdx fun i c => c ^^^ s i).length = x.length / 1 * 1 := by
    rw [List.length_mapIdx, Nat.div_one, Nat.mul_one]
  refine ⟨Nat.one_pos, ?_, ?_, fun k v x _ => hinv (ks k v) x, fun k v x _ => hinv (ks k v) x,
    htag, hiv⟩
  · intro d k v x y
    cases d <;> exact hgrow _ x y
  · intro d k v x
    cases d <;> exact hlen _ x

end HighJump.Lib.Evp
