/-
HighJump.Db.RedisTheorems — the argument vector of `_exec` against what
was asked.

The loop is followed token by token (`leads_scan`): a literal token, a
string, a blob and a null are read as they are, a number is read through
the pointer taken when its string was pushed, so as the finished
`arg_buffers` answers. With as many placeholders as arguments the vector is
the one that was asked for exactly if no short number is followed by one
whose `push_back` moves the strings (`seen_eq_asked_iff`).
-/
import HighJump.Db.Redis

namespace HighJump.Db.Redis

open HighJump.Lib

variable {impl : Impl} {cmdTmpl : Bytes} {args : List ValIn}

/-! ## What the tokens are read as -/

/-- The tokens as they are read when `rd` answers for the strings of
`arg_buffers`, the next of which is the `p`-th. -/
def readAs (rd : Nat → Option Bytes) : List Bytes → List ValIn → Nat → List (Option Bytes)
  | [], _, _ => []
  | token :: ts, args, p =>
      if isPlaceholder token then
        match args with
        | val :: vals =>
            if val.buffered.isSome then rd p :: readAs rd ts vals (p + 1)
            else some val.rendering :: readAs rd ts vals p
        | [] => readAs rd ts [] p
      else some token :: readAs rd ts args p

section Equations

variable {rd : Nat → Option Bytes} {token : Bytes} {ts : List Bytes} {val : ValIn}
  {vals : List ValIn} {p : Nat}

theorem readAs_literal (h : isPlaceholder token = false) :
    readAs rd (token :: ts) args p = some token :: readAs rd ts args p :=
  if_neg (ne_true_of_eq_false h)

theorem readAs_exhausted (h : isPlaceholder token = true) :
    readAs rd (token :: ts) [] p = readAs rd ts [] p :=
  if_pos h

theorem readAs_outside (h : isPlaceholder token = true) (hval : val.buffered = none) :
    readAs rd (token :: ts) (val :: vals) p = some val.rendering :: readAs rd ts vals p :=
  (if_pos h).trans (if_neg (by rw [hval]; exact Bool.false_ne_true))

theorem readAs_buffered (h : isPlaceholder token = true) {str : Bytes}
    (hval : val.buffered = some str) :
    readAs rd (token :: ts) (val :: vals) p = rd p :: readAs rd ts vals (p + 1) :=
  (if_pos h).trans (if_pos (by rw [hval]; rfl))

theorem asked_literal (h : isPlaceholder token = false) :
    asked (token :: ts) args = token :: asked ts args :=
  if_neg (ne_true_of_eq_false h)

theorem asked_placeholder (h : isPlaceholder token = true) :
    asked (token :: ts) (val :: vals) = val.rendering :: asked ts vals :=
  if_pos h

end Equations

theorem rendering_eq {val : ValIn} {str : Bytes} (h : val.buffered = some str) :
    val.rendering = str := by
  cases val with
  | int n => exact Option.some.inj h
  | double d => exact Option.some.inj h
  | null => cases h
  | string bytes => cases h
  | blob bytes => cases h

/-- Read with every string in place this is what was asked, and with no
other reading. -/
theorem readAs_eq_asked_iff (rd : Nat → Option Bytes) (ts : List Bytes) (args : List ValIn)
    (p : Nat) (h : (ts.filter isPlaceholder).length = args.length) :
    readAs rd ts args p = (asked ts args).map some ↔
      ∀ j str, (buffered args)[j]? = some str → rd (p + j) = some str := by
  induction ts generalizing args p with
  | nil =>
      have hargs : args = [] := List.eq_nil_of_length_eq_zero h.symm
      rw [hargs]
      exact iff_of_true rfl fun j str hj => by cases hj
  | cons token ts ih =>
      by_cases hph : isPlaceholder token = true
      · rw [List.filter_cons_of_pos hph, List.length_cons] at h
        cases args with
        | nil => cases h
        | cons val vals =>
            have hlen : (ts.filter isPlaceholder).length = vals.length := Nat.succ.inj h
            rw [asked_placeholder hph, List.map_cons]
            cases hval : val.buffered with
            | none =>
                have hrest : buffered (val :: vals) = buffered vals :=
                  List.filterMap_cons_none hval
                rw [hrest, readAs_outside hph hval, List.cons.injEq]
                exact (and_iff_right rfl).trans (ih vals p hlen)
            | some str =>
                have hrest : buffered (val :: vals) = str :: buffered vals :=
                  List.filterMap_cons_some hval
                rw [hrest, readAs_buffered hph hval, List.cons.injEq, rendering_eq hval,
                  ih vals (p + 1) hlen]
                constructor
                · rintro ⟨hfst, hall⟩ j str' hj
                  cases j with
                  | zero => rw [Nat.add_zero, hfst, ← hj, List.getElem?_cons_zero]
                  | succ j =>
                      rw [← Nat.add_assoc, Nat.add_right_comm]
                      exact hall j str' (by rwa [List.getElem?_cons_succ] at hj)
                · intro hall
                  refine ⟨hall 0 str List.getElem?_cons_zero, fun j str' hj => ?_⟩
                  have hnext := hall (j + 1) str' (by rwa [List.getElem?_cons_succ])
                  rwa [← Nat.add_assoc, Nat.add_right_comm] at hnext
      · have hlit : isPlaceholder token = false := Bool.not_eq_true _ ▸ hph
        rw [List.filter_cons_of_neg hph] at h
        rw [readAs_literal hlit, asked_literal hlit, List.map_cons, List.cons.injEq]
        exact (and_iff_right rfl).trans (ih args p h)

/-! ## What `_append_val_in` adds -/

/-- What the finished vector `final` reads through the entries so far. -/
def Locals.seen (cmdTmpl : Bytes) (final : StringVector) (s : Locals) : List (Option Bytes) :=
  List.zipWith (CharPtr.readN cmdTmpl final) s.argv s.argvlen

theorem readN_self {final : StringVector} {ptr : CharPtr} {bytes : Bytes}
    (h : ptr.chars cmdTmpl final = some bytes) :
    ptr.readN cmdTmpl final bytes.length = some bytes := by
  rw [CharPtr.readN, h, Option.bind_some, if_pos (Nat.le_refl _), List.take_length]

/-- The two vectors have one length, and `arg_buffers` has the strings of
the arguments before `argIdx`. -/
structure Locals.Inv (impl : Impl) (args : List ValIn) (s : Locals) : Prop where
  paired : s.argv.length = s.argvlen.length
  argBuffers : s.argBuffers = StringVector.pushAll impl (buffered (args.take s.argIdx))

/-- Through the pointer to the `j`-th string, as the finished `arg_buffers`
answers. -/
def finalRead (impl : Impl) (args : List ValIn) (j : Nat) : Option Bytes :=
  (StringVector.pushAll impl (buffered args)).read (StringVector.dataPtr impl (buffered args) j)

theorem seen_push {final : StringVector} {s : Locals} (h : s.argv.length = s.argvlen.length)
    (ptr : CharPtr) (len : Nat) :
    (s.push ptr len).seen cmdTmpl final =
      s.seen cmdTmpl final ++ [ptr.readN cmdTmpl final len] := by
  rw [Locals.seen, Locals.push, List.zipWith_append h]
  rfl

theorem length_push {s : Locals} (h : s.argv.length = s.argvlen.length) (ptr : CharPtr)
    (len : Nat) : (s.push ptr len).argv.length = (s.push ptr len).argvlen.length := by
  rw [Locals.push, List.length_append, List.length_append, h]
  rfl

/-- What is read in the end if these tokens are still to come. -/
def Locals.toCome (impl : Impl) (cmdTmpl : Bytes) (args : List ValIn) (s : Locals)
    (ts : List Bytes) : List (Option Bytes) :=
  s.seen cmdTmpl (StringVector.pushAll impl (buffered args)) ++
    readAs (finalRead impl args) ts (args.drop s.argIdx) (buffered (args.take s.argIdx)).length

theorem toCome_push {s : Locals} (h : s.argv.length = s.argvlen.length) (ptr : CharPtr)
    (len : Nat) (ts : List Bytes) :
    (s.push ptr len).toCome impl cmdTmpl args ts =
      s.seen cmdTmpl (StringVector.pushAll impl (buffered args)) ++
        ptr.readN cmdTmpl (StringVector.pushAll impl (buffered args)) len ::
          readAs (finalRead impl args) ts (args.drop s.argIdx)
            (buffered (args.take s.argIdx)).length := by
  rw [Locals.toCome, seen_push h, List.append_assoc]
  rfl

theorem buffered_take_succ {k : Nat} {val : ValIn} (h : args[k]? = some val) :
    buffered (args.take (k + 1)) = buffered (args.take k) ++ val.buffered.toList := by
  rw [List.take_add_one, h, Option.toList_some, buffered, List.filterMap_append, buffered]
  cases hval : val.buffered with
  | none => rw [List.filterMap_cons_none hval]; rfl
  | some str => rw [List.filterMap_cons_some hval]; rfl

theorem buffered_split {k : Nat} {val : ValIn} {str : Bytes} (h : args[k]? = some val)
    (hval : val.buffered = some str) :
    buffered args = buffered (args.take k) ++ str :: buffered (args.drop (k + 1)) := by
  have htake := buffered_take_succ h
  rw [hval] at htake
  rw [← List.singleton_append, ← List.append_assoc]
  have hjoin : buffered (args.take (k + 1)) ++ buffered (args.drop (k + 1)) = buffered args := by
    rw [buffered, buffered, ← List.filterMap_append, List.take_append_drop]
    rfl
  rw [← hjoin, htake]
  rfl

/-- An argument that is not copied. -/
theorem toCome_outside {s : Locals} {val : ValIn} {token : Bytes} {ptr : CharPtr}
    (hs : s.Inv impl args) (hval : args[s.argIdx]? = some val) (hbuf : val.buffered = none)
    (hptr : ∀ final, ptr.chars cmdTmpl final = some val.rendering)
    (hph : isPlaceholder token = true) (ts : List Bytes) :
    ({ s with argIdx := s.argIdx + 1 }.push ptr val.rendering.length).Inv impl args ∧
      ({ s with argIdx := s.argIdx + 1 }.push ptr val.rendering.length).toCome impl cmdTmpl args
        ts = s.toCome impl cmdTmpl args (token :: ts) := by
  have htake : buffered (args.take (s.argIdx + 1)) = buffered (args.take s.argIdx) := by
    rw [buffered_take_succ hval, hbuf]
    exact List.append_nil _
  have hdrop : args.drop s.argIdx = val :: args.drop (s.argIdx + 1) :=
    (List.getElem?_eq_some_iff.mp hval).choose_spec ▸ List.drop_eq_getElem_cons _
  refine ⟨⟨length_push hs.paired _ _, ?_⟩, ?_⟩
  · exact hs.argBuffers.trans (congrArg (StringVector.pushAll impl) htake.symm)
  · refine (toCome_push (by exact hs.paired) ptr val.rendering.length ts).trans ?_
    rw [readN_self (hptr _), Locals.toCome, hdrop, readAs_outside hph hbuf, ← htake]
    rfl

/-- A number: what is read is up to the finished `arg_buffers`. -/
theorem toCome_buffered {s : Locals} {val : ValIn} {token str : Bytes} (hs : s.Inv impl args)
    (hval : args[s.argIdx]? = some val) (hbuf : val.buffered = some str)
    (hph : isPlaceholder token = true) (ts : List Bytes) :
    ({ s with argIdx := s.argIdx + 1 }.pushBuffer impl str).Inv impl args ∧
      ({ s with argIdx := s.argIdx + 1 }.pushBuffer impl str).toCome impl cmdTmpl args ts =
        s.toCome impl cmdTmpl args (token :: ts) := by
  have htake : buffered (args.take (s.argIdx + 1)) = buffered (args.take s.argIdx) ++ [str] := by
    rw [buffered_take_succ hval, hbuf]
    rfl
  have hdrop : args.drop s.argIdx = val :: args.drop (s.argIdx + 1) :=
    (List.getElem?_eq_some_iff.mp hval).choose_spec ▸ List.drop_eq_getElem_cons _
  have hback : s.argBuffers.pushBack impl str =
      StringVector.pushAll impl (buffered (args.take (s.argIdx + 1))) := by
    rw [htake, StringVector.pushAll_snoc, hs.argBuffers]
  have hread : CharPtr.readN cmdTmpl (StringVector.pushAll impl (buffered args))
      (.argBuffer (s.argBuffers.pushBack impl str).backData) str.length =
        finalRead impl args (buffered (args.take s.argIdx)).length := by
    have hsplit := buffered_split hval hbuf
    rw [finalRead, hsplit, hs.argBuffers, ← StringVector.dataPtr_append]
    rcases StringVector.read_dataPtr (buffered (args.take s.argIdx))
      (buffered (args.drop (s.argIdx + 1))) str with ⟨hsome, -⟩ | ⟨hnone, -⟩
    · rw [hsome]
      exact readN_self hsome
    · rw [hnone, CharPtr.readN, CharPtr.chars, hnone]
      rfl
  refine ⟨⟨length_push hs.paired _ _, hback⟩, ?_⟩
  refine (toCome_push (by exact hs.paired) _ str.length ts).trans ?_
  have hlen : (buffered (args.take (s.argIdx + 1))).length =
      (buffered (args.take s.argIdx)).length + 1 := by
    rw [htake, List.length_append]
    rfl
  rw [hread, Locals.toCome, hdrop, readAs_buffered hph hbuf, ← hlen]
  rfl

theorem toCome_appendValIn {s : Locals} {val : ValIn} {token : Bytes} (hs : s.Inv impl args)
    (hval : args[s.argIdx]? = some val) (hph : isPlaceholder token = true) (ts : List Bytes) :
    ({ s with argIdx := s.argIdx + 1 }.appendValIn impl val).Inv impl args ∧
      ({ s with argIdx := s.argIdx + 1 }.appendValIn impl val).toCome impl cmdTmpl args ts =
        s.toCome impl cmdTmpl args (token :: ts) := by
  cases val with
  | null => exact toCome_outside hs hval rfl (fun _ => rfl) hph ts
  | int n => exact toCome_buffered hs hval rfl hph ts
  | double d => exact toCome_buffered hs hval rfl hph ts
  | string bytes => exact toCome_outside hs hval rfl (fun _ => rfl) hph ts
  | blob bytes => exact toCome_outside hs hval rfl (fun _ => rfl) hph ts

/-! ## The loop -/

/-- From `s` with the tokens `ts` to come to `s'` with `ts'` to come:
nothing changes about what is read in the end, and where the placeholders
matched the arguments they still do. -/
structure Leads (impl : Impl) (cmdTmpl : Bytes) (args : List ValIn) (s : Locals)
    (ts : List Bytes) (s' : Locals) (ts' : List Bytes) : Prop where
  inv : s'.Inv impl args
  toCome : s'.toCome impl cmdTmpl args ts' = s.toCome impl cmdTmpl args ts
  count : s.argIdx + (ts.filter isPlaceholder).length = args.length →
    s'.argIdx + (ts'.filter isPlaceholder).length = args.length

theorem Leads.trans {s₁ s₂ s₃ : Locals} {t₁ t₂ t₃ : List Bytes}
    (h : Leads impl cmdTmpl args s₁ t₁ s₂ t₂) (h' : Leads impl cmdTmpl args s₂ t₂ s₃ t₃) :
    Leads impl cmdTmpl args s₁ t₁ s₃ t₃ where
  inv := h'.inv
  toCome := h'.toCome.trans h.toCome
  count := fun hcount => h'.count (h.count hcount)

/-- `start` is not read. -/
theorem Leads.setStart {s s' : Locals} {ts ts' : List Bytes}
    (h : Leads impl cmdTmpl args s ts s' ts') (start : Nat) :
    Leads impl cmdTmpl args s ts { s' with start } ts' :=
  ⟨⟨h.inv.paired, h.inv.argBuffers⟩, h.toCome, h.count⟩

@[simp] theorem appendValIn_argIdx (s : Locals) (val : ValIn) :
    (s.appendValIn impl val).argIdx = s.argIdx := by
  cases val <;> rfl

/-- One placeholder. -/
theorem leads_placeholder {s : Locals} {token : Bytes} (hs : s.Inv impl args)
    (hph : isPlaceholder token = true) (ts : List Bytes) :
    Leads impl cmdTmpl args s (token :: ts)
      (match args[s.argIdx]? with
        | some val => { s with argIdx := s.argIdx + 1 }.appendValIn impl val
        | none => s) ts := by
  cases hval : args[s.argIdx]? with
  | some val =>
      obtain ⟨hinv, htoCome⟩ := toCome_appendValIn hs hval hph ts
      refine ⟨hinv, htoCome, fun hcount => ?_⟩
      rw [List.filter_cons_of_pos hph, List.length_cons] at hcount
      rw [appendValIn_argIdx, ← hcount]
      exact Nat.add_right_comm _ _ _
  | none =>
      have hend : args.length ≤ s.argIdx := List.getElem?_eq_none_iff.mp hval
      refine ⟨hs, ?_, fun hcount => ?_⟩
      · rw [Locals.toCome, Locals.toCome, List.drop_eq_nil_of_le hend, readAs_exhausted hph]
      · rw [List.filter_cons_of_pos hph, List.length_cons] at hcount
        omega

/-- One token that stands for itself. -/
theorem leads_literal {s : Locals} {token : Bytes} {start : Nat} (hs : s.Inv impl args)
    (htoken : token <+: cmdTmpl.drop start) (hph : isPlaceholder token = false)
    (ts : List Bytes) :
    Leads impl cmdTmpl args s (token :: ts) (s.push (.cmdTmpl start) token.length) ts := by
  have hread : CharPtr.readN cmdTmpl (StringVector.pushAll impl (buffered args))
      (.cmdTmpl start) token.length = some token := by
    rw [CharPtr.readN, CharPtr.chars, Option.bind_some, if_pos htoken.length_le,
      ← List.prefix_iff_eq_take.mp htoken]
  refine ⟨⟨length_push hs.paired _ _, hs.argBuffers⟩, ?_, fun hcount => ?_⟩
  · rw [toCome_push hs.paired, hread, Locals.toCome, readAs_literal hph]
  · rwa [List.filter_cons_of_neg (by rw [hph]; exact Bool.false_ne_true)] at hcount

/-- The token from `start` to `i`, if it is not empty. -/
theorem leads_endToken {s : Locals} {i : Nat} (hs : s.Inv impl args) (hi : i ≤ cmdTmpl.length)
    (ts : List Bytes) :
    Leads impl cmdTmpl args s
      ([(cmdTmpl.drop s.start).take (i - s.start)].filter (· ≠ []) ++ ts)
      (endToken impl cmdTmpl args s i) ts := by
  have hlen : ((cmdTmpl.drop s.start).take (i - s.start)).length = i - s.start := by
    rw [List.length_take, List.length_drop]
    omega
  rw [endToken]
  refine Leads.setStart ?_ _
  by_cases hlt : i > s.start
  · have hne : (cmdTmpl.drop s.start).take (i - s.start) ≠ [] :=
      List.ne_nil_of_length_pos (by omega)
    rw [if_pos hlt, List.filter_cons_of_pos (by simpa using hne)]
    by_cases hph : isPlaceholder ((cmdTmpl.drop s.start).take (i - s.start)) = true
    · simp only [hph, if_true]
      exact leads_placeholder hs hph ts
    · simp only [hph]
      exact leads_literal hs (List.take_prefix _ _) (Bool.not_eq_true _ ▸ hph) ts
  · have hnil : (cmdTmpl.drop s.start).take (i - s.start) = [] :=
      List.eq_nil_of_length_eq_zero (by omega)
    rw [if_neg hlt, hnil]
    exact ⟨hs, rfl, id⟩

theorem tokens_cons {seg rest : Bytes} (h : (0x20 : UInt8) ∉ seg) :
    tokens (seg ++ 0x20 :: rest) = [seg].filter (· ≠ []) ++ tokens rest := by
  rw [tokens, List.splitOn_append_cons_self_of_not_mem h, tokens, ← List.filter_append]
  rfl

/-- The loop from `i` on reads the tokens behind `start`, if there is no
space between the two. -/
theorem leads_scan (rest : Bytes) {i : Nat} {s : Locals} (hs : s.Inv impl args)
    (hrest : cmdTmpl.drop i = rest) (hi : i ≤ cmdTmpl.length) (hstart : s.start ≤ i)
    (hseg : (0x20 : UInt8) ∉ (cmdTmpl.drop s.start).take (i - s.start)) :
    Leads impl cmdTmpl args s (tokens (cmdTmpl.drop s.start))
      (scan impl cmdTmpl args i rest s) [] := by
  have hsplit : (cmdTmpl.drop s.start).take (i - s.start) ++ rest = cmdTmpl.drop s.start := by
    have hdrop : (cmdTmpl.drop s.start).drop (i - s.start) = rest := by
      rw [List.drop_drop, ← hrest]
      congr 1
      omega
    rw [← hdrop, List.take_append_drop]
  induction rest generalizing i s with
  | nil =>
      rw [List.append_nil] at hsplit
      have hend : Leads impl cmdTmpl args s _ _ _ := leads_endToken hs hi []
      rw [hsplit, List.append_nil] at hend
      rw [tokens, List.splitOn_eq_singleton (by rwa [← hsplit])]
      exact hend
  | cons c rest ih =>
      have hlt : i < cmdTmpl.length := by
        by_contra hge
        rw [List.drop_eq_nil_of_le (by omega)] at hrest
        cases hrest
      have hrest' : cmdTmpl.drop (i + 1) = rest := by
        rw [← List.drop_drop, hrest]
        rfl
      rw [scan]
      by_cases hc : c = 0x20
      · rw [if_neg (not_not.mpr hc)]
        have hfirst : Leads impl cmdTmpl args s (tokens (cmdTmpl.drop s.start))
            (endToken impl cmdTmpl args s i) (tokens rest) := by
          rw [← hsplit, hc, tokens_cons hseg]
          exact leads_endToken hs hi _
        refine hfirst.trans ?_
        have hstart' : (endToken impl cmdTmpl args s i).start = i + 1 := rfl
        have hnext := ih (i := i + 1) (s := endToken impl cmdTmpl args s i) hfirst.inv hrest' hlt
          (Nat.le_refl _)
        rw [hstart', hrest', Nat.sub_self] at hnext
        exact hnext List.not_mem_nil rfl
      · rw [if_pos hc]
        have hlonger : (cmdTmpl.drop s.start).take (i + 1 - s.start) =
            (cmdTmpl.drop s.start).take (i - s.start) ++ [c] := by
          have hget : (cmdTmpl.drop s.start)[i - s.start]? = some c := by
            rw [List.getElem?_drop, Nat.add_sub_cancel' hstart, ← List.head?_drop, hrest]
            rfl
          rw [Nat.sub_add_comm hstart, List.take_add_one, hget]
          rfl
        refine ih hs hrest' hlt (by omega) ?_ ?_
        · rw [hlonger]
          simp only [List.mem_append, List.mem_singleton, not_or]
          exact ⟨hseg, fun h => hc h.symm⟩
        · rw [hlonger, List.append_assoc]
          exact hsplit

/-! ## `_exec` -/

theorem readAs_ne_nil (rd : Nat → Option Bytes) {ts : List Bytes} {p : Nat} (hts : ts ≠ [])
    (h : (ts.filter isPlaceholder).length = args.length) : readAs rd ts args p ≠ [] := by
  cases ts with
  | nil => exact absurd rfl hts
  | cons token ts =>
      by_cases hph : isPlaceholder token = true
      · rw [List.filter_cons_of_pos hph, List.length_cons] at h
        cases args with
        | nil => cases h
        | cons val vals =>
            cases hval : val.buffered with
            | none =>
                rw [readAs_outside hph hval]
                exact List.cons_ne_nil _ _
            | some str =>
                rw [readAs_buffered hph hval]
                exact List.cons_ne_nil _ _
      · rw [readAs_literal (Bool.not_eq_true _ ▸ hph)]
        exact List.cons_ne_nil _ _

/-- Behind the loop, with as many placeholders as arguments: the vector is
complete, and its entries are read as it answers. -/
theorem scan_seen (h : ((tokens cmdTmpl).filter isPlaceholder).length = args.length) :
    (scan impl cmdTmpl args 0 cmdTmpl {}).argBuffers =
        StringVector.pushAll impl (buffered args) ∧
      (scan impl cmdTmpl args 0 cmdTmpl {}).seen cmdTmpl
          (scan impl cmdTmpl args 0 cmdTmpl {}).argBuffers =
        readAs (finalRead impl args) (tokens cmdTmpl) args 0 := by
  have hscan : Leads impl cmdTmpl args {} (tokens cmdTmpl)
      (scan impl cmdTmpl args 0 cmdTmpl {}) [] :=
    leads_scan cmdTmpl ⟨rfl, rfl⟩ rfl (Nat.zero_le _) (Nat.le_refl _) List.not_mem_nil
  have hcount : (scan impl cmdTmpl args 0 cmdTmpl {}).argIdx = args.length :=
    hscan.count ((Nat.zero_add _).trans h)
  have hbuffers : (scan impl cmdTmpl args 0 cmdTmpl {}).argBuffers =
      StringVector.pushAll impl (buffered args) := by
    rw [hscan.inv.argBuffers, hcount, List.take_length]
  have hseen := hscan.toCome
  rw [Locals.toCome, readAs, List.append_nil, ← hbuffers] at hseen
  exact ⟨hbuffers, hseen⟩

/-- With as many placeholders as arguments the numbers are read as the
finished `arg_buffers` answers, everything else as it is. -/
theorem exec_seen (h : ((tokens cmdTmpl).filter isPlaceholder).length = args.length) {call : Call}
    (hcall : exec impl cmdTmpl args = .ok call) :
    call.seen = readAs (finalRead impl args) (tokens cmdTmpl) args 0 := by
  rw [exec] at hcall
  split at hcall
  · cases hcall
  · rw [← Except.ok.inj hcall]
    exact (scan_seen h).2

/-- A template that takes an argument is a command. -/
theorem exec_ok (h : ((tokens cmdTmpl).filter isPlaceholder).length = args.length)
    (hargs : args ≠ []) : ∃ call, exec impl cmdTmpl args = .ok call := by
  have hts : tokens cmdTmpl ≠ [] := by
    intro hnil
    rw [hnil] at h
    exact hargs (List.eq_nil_of_length_eq_zero h.symm)
  rw [exec]
  split
  · next hempty =>
      have hseen : (scan impl cmdTmpl args 0 cmdTmpl {}).seen cmdTmpl _ = _ := (scan_seen h).2
      rw [Locals.seen, List.isEmpty_iff.mp hempty, List.zipWith_nil_left] at hseen
      exact absurd hseen.symm (readAs_ne_nil _ hts h)
  · exact ⟨_, rfl⟩

/-- Where the strings end up is where they are read. -/
theorem finalRead_iff_kept :
    (∀ j str, (buffered args)[j]? = some str → finalRead impl args (0 + j) = some str) ↔
      Kept impl args := by
  have hone : ∀ j str, (buffered args)[j]? = some str →
      (finalRead impl args j = some str ↔ StringVector.Survives impl (buffered args) j) := by
    intro j str hj
    obtain ⟨hlt, hget⟩ := List.getElem?_eq_some_iff.mp hj
    have hsplit : (buffered args).take j ++ str :: (buffered args).drop (j + 1) =
        buffered args := by
      rw [← hget, ← List.drop_eq_getElem_cons, List.take_append_drop]
    have hlen : ((buffered args).take j).length = j := by
      rw [List.length_take]
      omega
    have hread : (StringVector.pushAll impl _).read _ = _ ∧ _ ∨ _ :=
      StringVector.read_dataPtr ((buffered args).take j) ((buffered args).drop (j + 1)) str
    rw [hsplit, hlen] at hread
    rcases hread with ⟨hsome, hsurvives⟩ | ⟨hnone, hlost⟩
    · exact iff_of_true hsome hsurvives
    · refine iff_of_false ?_ hlost
      rw [finalRead, hnone]
      exact (Option.some_ne_none str).symm
  constructor
  · intro hall j hlt
    have hj : (buffered args)[j]? = some ((buffered args)[j]) := List.getElem?_eq_getElem hlt
    have hread := hall j _ hj
    rw [Nat.zero_add] at hread
    exact (hone j _ hj).mp hread
  · intro hkept j str hj
    rw [Nat.zero_add]
    exact (hone j str hj).mpr (hkept j (List.getElem?_eq_some_iff.mp hj).choose)

/-- **The arguments are what was asked for** exactly if no short number is
followed by a number whose string makes `arg_buffers` move. -/
theorem seen_eq_asked_iff
    (h : ((tokens cmdTmpl).filter isPlaceholder).length = args.length) :
    (∀ call, exec impl cmdTmpl args = .ok call →
      call.seen = (asked (tokens cmdTmpl) args).map some) ↔ Kept impl args := by
  have hasked := (readAs_eq_asked_iff (finalRead impl args) (tokens cmdTmpl) args 0 h).trans
    finalRead_iff_kept
  constructor
  · intro hall
    by_cases hargs : args = []
    · rw [hargs]
      exact fun j hj => absurd hj (Nat.not_lt_zero j)
    · obtain ⟨call, hcall⟩ : ∃ call, exec impl cmdTmpl args = .ok call := exec_ok h hargs
      rw [← hasked, ← exec_seen h hcall]
      exact hall call hcall
  · intro hkept call hcall
    rw [exec_seen h hcall]
    exact hasked.mpr hkept

/-- `std::string` and `std::vector` as in libstdc++ (fifteen bytes in
place, doubled when full). -/
def libstdcxx : Impl where
  sso := 15
  grow := fun n => if n = 0 then 1 else 2 * n
  lt_grow := by
    intro n
    split <;> omega

/-- `LRANGE k ? ?` -/
def lrange : Bytes :=
  [0x4C, 0x52, 0x41, 0x4E, 0x47, 0x45, 0x20, 0x6B, 0x20, 0x3F, 0x20, 0x3F]

/-- `LRANGE k ? ?` with `0` and `9`: the second `push_back` moves the
string of the first. -/
theorem exec_lrange_moved :
    ¬ ∀ call, exec libstdcxx lrange [.int 0, .int 9] = .ok call →
      call.seen = (asked (tokens lrange) [.int 0, .int 9]).map some := by
  intro hall
  have hseen : (exec libstdcxx lrange [.int 0, .int 9]).toOption.map Call.seen =
      some [some [0x4C, 0x52, 0x41, 0x4E, 0x47, 0x45], some [0x6B], none, some [0x39]] := by
    decide
  cases hexec : exec libstdcxx lrange [.int 0, .int 9] with
  | error msg =>
      rw [hexec] at hseen
      cases hseen
  | ok call =>
      rw [hexec] at hseen
      have hread := (hall call hexec).symm.trans (Option.some.inj hseen)
      exact absurd hread (by decide)

/-- `RPUSH k ? ? ? ?` -/
def rpush : Bytes :=
  [0x52, 0x50, 0x55, 0x53, 0x48, 0x20, 0x6B, 0x20, 0x3F, 0x20, 0x3F, 0x20, 0x3F, 0x20, 0x3F]

/-- Four numbers: the first two are too long to be in place, and for the
fourth there is room behind the third. -/
def fourNumbers : List ValIn :=
  [.int 1000000000000000, .int 1000000000000001, .int 3, .int 7]

theorem seen_eq_asked_iff_rpush :
    Kept libstdcxx fourNumbers ∧ ∀ call, exec libstdcxx rpush fourNumbers = .ok call →
      call.seen = (asked (tokens rpush) fourNumbers).map some := by
  have hkept : Kept libstdcxx fourNumbers := by
    intro j hj
    have hfour : j < 4 := hj
    rcases (by omega : j = 0 ∨ j = 1 ∨ j = 2 ∨ j = 3) with rfl | rfl | rfl | rfl
    · have hlong : ∀ b ∈ (buffered fourNumbers)[0]?, libstdcxx.sso < b.length := by decide
      exact .inl hlong
    · have hlong : ∀ b ∈ (buffered fourNumbers)[1]?, libstdcxx.sso < b.length := by decide
      exact .inl hlong
    · refine .inr fun k hk hlt => ?_
      have hlt : k < 4 := hlt
      obtain rfl : k = 3 := by omega
      decide
    · exact .inr fun k hk hlt => absurd hlt (Nat.not_lt.mpr hk)
  exact ⟨hkept, (seen_eq_asked_iff (by decide)).2 hkept⟩

end HighJump.Db.Redis
