/-
HighJump.Algo.BloomFilterTheorems — what a filter holds after a run, and
what another filter makes of its serialization.

The bits set after a run are the positions of the values added since the
last `clear`, one for each hash function of the filter
(`test_run_iff`). A second filter that takes over these bits asks for the
positions of its own hash functions, so it knows the added values exactly
when each of these positions was set by some added value.
-/
import HighJump.Algo.BloomFilter

namespace HighJump.Algo.Bloom

/-! ## Bit sets -/

namespace DynamicBitset

/-- One bit of a word. -/
theorem and_one_ne_zero (w : BitVec 64) (b : Nat) :
    decide ((w >>> b) &&& 1 ≠ 0) = w.getLsbD b := by
  have hbit : ((w >>> b) &&& 1#64) = BitVec.setWidth 64 (BitVec.ofBool (w.getLsbD b)) := by
    apply BitVec.eq_of_getLsbD_eq
    intro i hi
    rw [BitVec.getLsbD_and, BitVec.getLsbD_ushiftRight, BitVec.getLsbD_setWidth,
      BitVec.getLsbD_ofBool, BitVec.getLsbD_one]
    cases i with
    | zero => simp
    | succ i => simp
  change decide ((w >>> b) &&& 1#64 ≠ 0#64) = w.getLsbD b
  rw [hbit]
  cases w.getLsbD b <;> decide

/-- A word of the set, zero outside it. -/
def word (s : DynamicBitset) (i : Nat) : BitVec 64 := s.data[i]?.getD 0

theorem get_eq_word (s : DynamicBitset) {i : Nat} (h : i < s.data.length) :
    s.data.get ⟨i, h⟩ = s.word i := by
  rw [word, List.getElem?_eq_getElem h]
  rfl

theorem test_eq (s : DynamicBitset) {pos : Nat} (h : pos < s.numBits) :
    s.test pos = (s.word (pos / 64)).getLsbD (pos % 64) := by
  rw [test, dif_pos h, ← get_eq_word s (s.word_lt h)]
  exact and_one_ne_zero _ _

theorem test_of_le (s : DynamicBitset) {pos : Nat} (h : s.numBits ≤ pos) : s.test pos = false := by
  rw [test, dif_neg (by omega)]

/-- A word with one bit changed. -/
theorem getLsbD_setBit (w : BitVec 64) {n b : Nat} (hb : b < 64) (value : Bool) :
    (if value then w ||| (1#64 <<< n) else w &&& ~~~(1#64 <<< n)).getLsbD b =
      if b = n then value else w.getLsbD b := by
  have hone : (1#64 <<< n).getLsbD b = decide (b = n) := by
    rw [BitVec.getLsbD_shiftLeft, BitVec.getLsbD_one]
    by_cases hlt : b < n
    · simp [hlt, Nat.ne_of_lt hlt]
    · by_cases heq : b = n
      · simp [heq, heq ▸ hb]
      · simp [hb, hlt, heq, show b - n ≠ 0 by omega]
  cases value with
  | true =>
      rw [if_pos rfl, BitVec.getLsbD_or, hone]
      by_cases heq : b = n <;> simp [heq]
  | false =>
      rw [if_neg Bool.false_ne_true, BitVec.getLsbD_and, BitVec.getLsbD_not, hone]
      by_cases heq : b = n <;> simp [heq, hb]

theorem word_set (s : DynamicBitset) {pos : Nat} (h : pos < s.numBits) (value : Bool) (i : Nat) :
    (s.set pos value).word i = if pos / 64 = i then
      (if value then s.word (pos / 64) ||| (1#64 <<< (pos % 64))
        else s.word (pos / 64) &&& ~~~(1#64 <<< (pos % 64))) else s.word i := by
  have hlt := s.word_lt h
  rw [set, dif_pos h, word, List.getElem?_set, get_eq_word s hlt]
  split <;> rfl

/-- Setting a bit changes that bit and no other. -/
theorem test_set (s : DynamicBitset) {pos : Nat} (h : pos < s.numBits) (value : Bool) (q : Nat) :
    (s.set pos value).test q = if q = pos then value else s.test q := by
  by_cases hq : q < s.numBits
  · have hq' : q < (s.set pos value).numBits := by rw [numBits_set]; exact hq
    rw [test_eq _ hq', test_eq s hq, word_set s h]
    by_cases hword : pos / 64 = q / 64
    · rw [if_pos hword, getLsbD_setBit _ (Nat.mod_lt q (by decide)), hword]
      by_cases heq : q = pos
      · rw [if_pos (by rw [heq]), if_pos heq]
      · rw [if_neg (by omega), if_neg heq]
    · rw [if_neg hword, if_neg fun heq => hword (by rw [heq])]
  · have hq' : (s.set pos value).numBits ≤ q := by rw [numBits_set]; omega
    rw [test_of_le _ hq', if_neg (by omega), test_of_le s (by omega)]

end DynamicBitset

/-! ## What the operations do to a bit -/

section

variable {T : Type} (env : Env T)

theorem test_ofSize (numBits q : Nat) : (DynamicBitset.ofSize numBits).test q = false := by
  by_cases h : q < numBits
  · rw [DynamicBitset.test_eq _ h, DynamicBitset.word, DynamicBitset.ofSize,
      List.getElem?_replicate]
    split <;> simp
  · exact DynamicBitset.test_of_le _ (Nat.le_of_not_lt h)

theorem test_reset (s : DynamicBitset) (q : Nat) : s.reset.test q = false := by
  by_cases h : q < s.numBits
  · rw [DynamicBitset.test_eq s.reset h, DynamicBitset.word, DynamicBitset.reset,
      List.getElem?_replicate]
    split <;> simp
  · exact DynamicBitset.test_of_le s.reset (Nat.le_of_not_lt h)

namespace BloomFilter

theorem position_lt (numBits : Nat) (h : 0 < numBits) (value : T) (i : Nat) :
    position env numBits value i < numBits := Nat.mod_lt _ h

/-- Adding sets the positions of the value. -/
theorem test_setAll_iff {bits : DynamicBitset} (hpos : 0 < bits.numBits) (value : T) (q : Nat)
    (numHashes : Nat) :
    (setAll env bits.numBits value bits numHashes).test q = true ↔
      bits.test q = true ∨ ∃ i < numHashes, position env bits.numBits value i = q := by
  induction numHashes with
  | zero => simp [setAll]
  | succ n ih =>
      have hlt : position env bits.numBits value n <
          (setAll env bits.numBits value bits n).numBits := by
        rw [numBits_setAll]
        exact position_lt env _ hpos value n
      have hstep : setAll env bits.numBits value bits (n + 1) =
          (setAll env bits.numBits value bits n).set (position env bits.numBits value n) true := by
        rw [setAll, List.range_succ, List.foldl_append]
        rfl
      rw [hstep, DynamicBitset.test_set _ hlt]
      by_cases hq : q = position env bits.numBits value n
      · rw [if_pos hq]
        exact iff_of_true rfl (.inr ⟨n, Nat.lt_succ_self n, hq.symm⟩)
      · rw [if_neg hq, ih]
        refine or_congr_right ?_
        constructor
        · rintro ⟨i, hi, hpos⟩
          exact ⟨i, by omega, hpos⟩
        · rintro ⟨i, hi, hpos⟩
          refine ⟨i, ?_, hpos⟩
          have : i ≠ n := by
            rintro rfl
            exact hq hpos.symm
          omega

/-- Reading a string back sets the bits it covers. -/
theorem test_setFrom (s : List Char) :
    ∀ (bits : DynamicBitset) (i q : Nat), i + s.length ≤ bits.numBits →
      (setFrom bits i s).test q =
        if i ≤ q ∧ q < i + s.length then s[q - i]? == some '1' else bits.test q := by
  induction s with
  | nil =>
      intro bits i q _
      rw [if_neg (by rw [List.length_nil]; omega)]
      rfl
  | cons c s ih =>
      intro bits i q hle
      rw [List.length_cons] at hle
      rw [setFrom, ih _ _ _ (by rw [numBits_set]; omega),
        DynamicBitset.test_set bits (by omega), List.length_cons]
      rcases Nat.lt_trichotomy q i with hlt | heq | hgt
      · rw [if_neg (by omega), if_neg (by omega), if_neg (by omega)]
      · rw [if_neg (by omega), if_pos heq, if_pos (by omega), heq, Nat.sub_self]
        rfl
      · obtain ⟨d, rfl⟩ : ∃ d, q = i + 1 + d := ⟨q - (i + 1), by omega⟩
        rw [show i + 1 + d - (i + 1) = d by omega, show i + 1 + d - i = d + 1 by omega,
          List.getElem?_cons_succ]
        by_cases hd : d < s.length
        · rw [if_pos (by omega), if_pos (by omega)]
        · rw [if_neg (by omega), if_neg (by omega), if_neg (by omega)]

theorem getElem?_serialize (f : BloomFilter) {q : Nat} (h : q < f.numBits) :
    f.serialize[q]? = some (if f.bits.test q then '1' else '0') := by
  rw [serialize, List.getElem?_map, List.getElem?_range h]
  rfl

/-- **Acceptance**: only the number of bits is compared. -/
theorem unserialize_fst (f g : BloomFilter) :
    (f.unserialize g.serialize).1 = true ↔ g.numBits = f.numBits := by
  have hlen : g.serialize.length = g.numBits := by
    rw [serialize, List.length_map, List.length_range]
  rw [unserialize, hlen]
  by_cases h : g.numBits = f.numBits
  · simp [h]
  · simp [h]

/-- An accepted serialization replaces the bits and nothing else. -/
theorem unserialize_snd {f g : BloomFilter} (h : g.numBits = f.numBits) :
    (f.unserialize g.serialize).2.numBits = f.numBits ∧
      (f.unserialize g.serialize).2.numHashFunctions = f.numHashFunctions ∧
      ∀ q, q < f.numBits → (f.unserialize g.serialize).2.bits.test q = g.bits.test q := by
  have hlen : g.serialize.length = f.numBits := by
    rw [serialize, List.length_map, List.length_range, h]
  rw [unserialize, if_neg (not_not.mpr hlen)]
  refine ⟨rfl, rfl, ?_⟩
  intro q hq
  have hfit : 0 + g.serialize.length ≤ f.bits.numBits := by
    rw [f.bits_size]
    omega
  rw [test_setFrom _ _ _ _ hfit, if_pos (by omega), Nat.sub_zero,
    getElem?_serialize g (by omega)]
  cases g.bits.test q <;> decide

end BloomFilter

/-! ## Runs -/

/-- The bits a filter with these parameters has after these values. -/
def Holds (f : BloomFilter) (seen : List T) : Prop :=
  ∀ q, f.bits.test q = true ↔
    ∃ u ∈ seen, ∃ j < f.numHashFunctions, position env f.numBits u j = q

theorem add_eq {f f' : BloomFilter} {v : T} (h : f.add env v = some f') :
    env.notEmpty v = true ∧ f'.numBits = f.numBits ∧ f'.numHashFunctions = f.numHashFunctions ∧
      f'.bits = BloomFilter.setAll env f.numBits v f.bits f.numHashFunctions := by
  rw [BloomFilter.add] at h
  split at h
  · next hv =>
      obtain rfl := Option.some.inj h
      exact ⟨hv, rfl, rfl, rfl⟩
  · cases h

/-- One `add` keeps the account. -/
theorem holds_add {f f' : BloomFilter} {seen : List T} {v : T} (hf : Holds env f seen)
    (h : f.add env v = some f') : Holds env f' (seen ++ [v]) := by
  obtain ⟨_, hbits, hhashes, hset⟩ := add_eq env h
  have hpos : 0 < f.bits.numBits := by
    rw [f.bits_size]
    exact f.numBits_pos
  intro q
  rw [hset, hbits, hhashes, ← f.bits_size, BloomFilter.test_setAll_iff env hpos, hf q,
    f.bits_size]
  constructor
  · rintro (⟨u, hu, j, hj⟩ | ⟨i, hi, hq⟩)
    · exact ⟨u, List.mem_append_left _ hu, j, hj⟩
    · exact ⟨v, List.mem_append_right _ (List.mem_singleton.mpr rfl), i, hi, hq⟩
  · rintro ⟨u, hu, j, hj, hq⟩
    rcases List.mem_append.mp hu with hu | hu
    · exact .inl ⟨u, hu, j, hj, hq⟩
    · rw [List.mem_singleton.mp hu] at hq
      exact .inr ⟨j, hj, hq⟩

/-- One `clear` empties it. -/
theorem holds_clear (f : BloomFilter) : Holds env f.clear [] := by
  intro q
  have htest : f.clear.bits.test q = false := test_reset f.bits q
  rw [htest]
  simp

/-- **A run keeps the account** of the values added since the last `clear`. -/
theorem holds_run (ops : List (Op T)) :
    ∀ {f f' : BloomFilter} {seen : List T}, Holds env f seen → run env f ops = some f' →
      Holds env f' (addedFrom seen ops) ∧ f'.numBits = f.numBits ∧
        f'.numHashFunctions = f.numHashFunctions := by
  induction ops with
  | nil =>
      intro f f' seen hf h
      obtain rfl := Option.some.inj h
      exact ⟨hf, rfl, rfl⟩
  | cons op ops ih =>
      intro f f' seen hf h
      cases op with
      | add v =>
          obtain ⟨f1, hadd, hrest⟩ := Option.bind_eq_some_iff.mp h
          obtain ⟨_, hbits, hhashes, _⟩ := add_eq env hadd
          obtain ⟨hholds, hbits', hhashes'⟩ := ih (holds_add env hf hadd) hrest
          exact ⟨hholds, hbits'.trans hbits, hhashes'.trans hhashes⟩
      | clear =>
          obtain ⟨hholds, hbits, hhashes⟩ := @ih f.clear f' [] (holds_clear env f) h
          exact ⟨hholds, hbits, hhashes⟩

/-- Whatever was added passed the assertion. -/
theorem notEmpty_of_mem_added (ops : List (Op T)) :
    ∀ {f f' : BloomFilter} {seen : List T}, (∀ v ∈ seen, env.notEmpty v = true) →
      run env f ops = some f' → ∀ v ∈ addedFrom seen ops, env.notEmpty v = true := by
  induction ops with
  | nil => intro f f' seen hseen _; exact hseen
  | cons op ops ih =>
      intro f f' seen hseen h
      cases op with
      | add v =>
          obtain ⟨f1, hadd, hrest⟩ := Option.bind_eq_some_iff.mp h
          refine ih ?_ hrest
          intro u hu
          rcases List.mem_append.mp hu with hu | hu
          · exact hseen u hu
          · rw [List.mem_singleton.mp hu]
            exact (add_eq env hadd).1
      | clear => exact ih (by simp) h

theorem holds_new (n : Nat) (p : env.Rate) : Holds env (bloomFilter env n p) [] := by
  intro q
  have htest : (bloomFilter env n p).bits.test q = false := test_ofSize _ q
  rw [htest]
  simp

theorem holds_added {n : Nat} {p : env.Rate} {ops : List (Op T)} {f : BloomFilter}
    (h : run env (bloomFilter env n p) ops = some f) :
    Holds env f (added ops) ∧ f.numBits = bitSize env n p ∧
      f.numHashFunctions = hashCount env n p :=
  holds_run env ops (holds_new env n p) h

/-! ## Transfer -/

/-- What the receiving filter answers for a value that was added. -/
theorem contains_unserialize_iff {A B : BloomFilter} {seen : List T} (hA : Holds env A seen)
    (hsize : A.numBits = B.numBits) {v : T} (hv : env.notEmpty v = true) :
    (B.unserialize A.serialize).2.contains env v = some true ↔
      ∀ i < B.numHashFunctions, ∃ u ∈ seen, ∃ j < A.numHashFunctions,
        position env A.numBits u j = position env A.numBits v i := by
  obtain ⟨hbits, hhashes, htest⟩ := BloomFilter.unserialize_snd hsize
  rw [BloomFilter.contains, if_pos hv, hbits, hhashes, Option.some_inj, List.all_eq_true]
  refine forall_congr' fun i => ?_
  rw [List.mem_range]
  refine imp_congr_right fun _ => ?_
  rw [htest _ (BloomFilter.position_lt env _ B.numBits_pos v i), hA, hsize]

/-- **Membership survives the transfer exactly when** every position the
receiving filter looks at for an added value was set by an added value. -/
theorem unserialize_keeps_members_iff {nA nB : Nat} {pA pB : env.Rate} {opsA opsB : List (Op T)}
    {A B : BloomFilter} (hA : run env (bloomFilter env nA pA) opsA = some A)
    (hB : run env (bloomFilter env nB pB) opsB = some B) :
    ((B.unserialize A.serialize).1 = true →
        ∀ v ∈ added opsA, (B.unserialize A.serialize).2.contains env v = some true) ↔
      (bitSize env nA pA = bitSize env nB pB →
        ∀ v ∈ added opsA, ∀ i < hashCount env nB pB,
          ∃ u ∈ added opsA, ∃ j < hashCount env nA pA,
            position env (bitSize env nA pA) u j = position env (bitSize env nA pA) v i) := by
  obtain ⟨hholds, hbitsA, hhashesA⟩ := holds_added env hA
  obtain ⟨_, hbitsB, hhashesB⟩ := holds_added env hB
  have hne : ∀ v ∈ added opsA, env.notEmpty v = true :=
    notEmpty_of_mem_added env opsA (fun v hv => absurd hv List.not_mem_nil) hA
  rw [BloomFilter.unserialize_fst, hbitsA, hbitsB]
  refine imp_congr_right fun hsize => ?_
  refine forall_congr' fun v => imp_congr_right fun hv => ?_
  rw [contains_unserialize_iff env hholds (by rw [hbitsA, hbitsB, hsize]) (hne v hv), hbitsA,
    hhashesA, hhashesB]

end

/-! ## A platform -/

/-- Rates as rationals, the x86-64 conversion of a large negative `double`
to `size_t`, and the hash functions of libstdc++ on `size_t`. -/
def sample : Env (BitVec 64) where
  Rate := Rat
  outOfRange := fun r => r ≤ 0 || r ≥ 1
  defaultRate := 1 / 100
  optimalNumOfBits := fun _ _ => 2 ^ 63
  roundedRatio := fun n m => (2 * m * 693147 + n * 1000000) / (2 * n * 1000000)
  h1 := id
  h2 := id
  notEmpty := fun _ => true

/-- Two filters with the same parameters. -/
theorem unserialize_keeps_members_same :
    ∃ A B : BloomFilter,
      run sample (bloomFilter sample 100 (1 / 100 : Rat)) [.add 1] = some A ∧
      run sample (bloomFilter sample 100 (1 / 100 : Rat)) [] = some B ∧
      (B.unserialize A.serialize).2.contains sample 1 = some true := by
  refine ⟨_, _, rfl, rfl, ?_⟩
  have hiff := @unserialize_keeps_members_iff _ sample 100 100 (1 / 100 : Rat) (1 / 100 : Rat)
    [.add 1] [] _ _ rfl rfl
  refine hiff.mpr (fun _ v hv i hi => ⟨v, hv, i, hi, rfl⟩) ?_ 1 (List.mem_singleton.mpr rfl)
  exact (BloomFilter.unserialize_fst _ _).mpr rfl

/-- A filter for 100000 values uses one hash function, one for a single
value uses sixteen; both have the same number of bits. -/
theorem unserialize_loses_member :
    ∃ A B : BloomFilter,
      run sample (bloomFilter sample 100000 (1 / 100 : Rat)) [.add 1] = some A ∧
      run sample (bloomFilter sample 1 (1 / 100 : Rat)) [] = some B ∧
      (B.unserialize A.serialize).1 = true ∧ (1 : BitVec 64) ∈ added [Op.add 1] ∧
      (B.unserialize A.serialize).2.contains sample 1 ≠ some true := by
  have hsizeA : bitSize sample 100000 (1 / 100 : Rat) = 65536 := by decide +kernel
  have hsizeB : bitSize sample 1 (1 / 100 : Rat) = 65536 := by decide +kernel
  have hone : hashCount sample 100000 (1 / 100 : Rat) = 1 := by decide +kernel
  have hsixteen : hashCount sample 1 (1 / 100 : Rat) = 16 := by decide +kernel
  have hpos : position sample 65536 1 0 ≠ position sample 65536 1 1 := by decide +kernel
  obtain ⟨A, hA⟩ :
      ∃ A, run sample (bloomFilter sample 100000 (1 / 100 : Rat)) [.add 1] = some A := ⟨_, rfl⟩
  obtain ⟨hholds, hbits, hhashes⟩ := holds_added sample hA
  have hsize : A.numBits = (bloomFilter sample 1 (1 / 100 : Rat)).numBits :=
    hbits.trans (hsizeA.trans hsizeB.symm)
  refine ⟨A, bloomFilter sample 1 (1 / 100 : Rat), hA, rfl,
    (BloomFilter.unserialize_fst _ _).mpr hsize, List.mem_singleton.mpr rfl, ?_⟩
  intro h
  have hlt : 1 < (bloomFilter sample 1 (1 / 100 : Rat)).numHashFunctions := by
    change 1 < hashCount sample 1 (1 / 100 : Rat)
    omega
  obtain ⟨u, hu, j, hj, hq⟩ := (contains_unserialize_iff sample hholds hsize rfl).mp h 1 hlt
  obtain rfl : u = 1 := List.mem_singleton.mp hu
  obtain rfl : j = 0 := by omega
  rw [hbits, hsizeA] at hq
  exact hpos hq

end HighJump.Algo.Bloom
