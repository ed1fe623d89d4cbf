/-
HighJump.Algo.BloomFilterRuns — what a filter holds after any run of
`add`, `clear` and `unserialize`.

An import may come at any point of a run and bring any string; the ones
that are not as long as the filter are refused. The account of a run is
the string of the last import that was taken (none behind a `clear`) and
the values added since, and the bits of the filter are the two of them
together (`Accounts`). An imported `'1'` stays where it is however many
values are added on top, so no value added since then is ever missed.
-/
import HighJump.Algo.BloomFilterTheorems
import HighJump.Lib.Lts

namespace HighJump.Algo.Bloom

open HighJump.Lib

section

variable {T : Type} (env : Env T)

/-! ## Calls -/

/-- The calls that change a filter. -/
inductive Call (T : Type) where
  | add (value : T)
  | clear
  | unserialize (s : List Char)

/-- One call; `none` is a failed assertion. -/
def BloomFilter.call (f : BloomFilter) : Call T → Option BloomFilter
  | .add v => f.add env v
  | .clear => some f.clear
  | .unserialize s => some (f.unserialize s).2

/-- The runs of a filter with these parameters. -/
def filterLts (n : Nat) (p : env.Rate) : Lts BloomFilter (Call T) where
  init f := f = bloomFilter env n p
  step f c f' := f.call env c = some f'

/-- What a run has to account for: the string it imported last, and the
values it added since. -/
structure Account (T : Type) where
  imported : List Char
  added : List T

/-- One call in the books of a filter with this many bits. -/
def Account.call (numBits : Nat) (a : Account T) : Call T → Account T
  | .add v => { a with added := a.added ++ [v] }
  | .clear => ⟨[], []⟩
  | .unserialize s => if s.length = numBits then ⟨s, []⟩ else a

def account (numBits : Nat) (tr : List (Call T)) : Account T :=
  tr.foldl (Account.call numBits) ⟨[], []⟩

theorem account_snoc (numBits : Nat) (tr : List (Call T)) (c : Call T) :
    account numBits (tr ++ [c]) = (account numBits tr).call numBits c := by
  rw [account, List.foldl_append]
  rfl

/-! ## The account of a run -/

/-- The bits of the filter are those of the import and the positions of
the values. -/
def Accounts (f : BloomFilter) (a : Account T) : Prop :=
  ∀ q, f.bits.test q = true ↔ a.imported[q]? = some '1' ∨
    ∃ v ∈ a.added, ∃ i < f.numHashFunctions, position env f.numBits v i = q

theorem accounts_empty {f : BloomFilter} (h : ∀ q, f.bits.test q = false) :
    Accounts env f ⟨[], []⟩ := by
  intro q
  rw [h q]
  simp

/-- One `add` puts the value in the books. -/
theorem accounts_add {f f' : BloomFilter} {a : Account T} {v : T} (ha : Accounts env f a)
    (h : f.add env v = some f') : Accounts env f' { a with added := a.added ++ [v] } := by
  obtain ⟨_, hbits, hhashes, hset⟩ := add_eq env h
  have hpos : 0 < f.bits.numBits := by
    rw [f.bits_size]
    exact f.numBits_pos
  intro q
  rw [hset, hbits, hhashes, ← f.bits_size, BloomFilter.test_setAll_iff env hpos, ha q,
    f.bits_size, or_assoc]
  refine or_congr_right ?_
  simp only [List.mem_append, List.mem_singleton, or_and_right, exists_or, exists_eq_left]

/-- An accepted string is what the filter holds from then on. -/
theorem accounts_unserialize {f : BloomFilter} {s : List Char} (h : s.length = f.numBits) :
    Accounts env (f.unserialize s).2 (⟨s, []⟩ : Account T) := by
  have hfit : 0 + s.length ≤ f.bits.numBits := by
    rw [f.bits_size]
    omega
  intro q
  rw [BloomFilter.unserialize, if_neg (not_not.mpr h), BloomFilter.test_setFrom s _ _ _ hfit]
  by_cases hq : q < s.length
  · rw [if_pos (by omega), Nat.sub_zero]
    simp
  · have hnone : s[q]? = none := List.getElem?_eq_none (by omega)
    rw [if_neg (by omega), DynamicBitset.test_of_le _ (by rw [f.bits_size]; omega), hnone]
    simp

/-- A string of another length is refused and changes nothing. -/
theorem unserialize_refused {f : BloomFilter} {s : List Char} (h : s.length ≠ f.numBits) :
    f.unserialize s = (false, f) := by
  rw [BloomFilter.unserialize, if_pos h]

theorem unserialize_taken {f : BloomFilter} {s : List Char} (h : s.length = f.numBits) :
    (f.unserialize s).1 = true ∧ (f.unserialize s).2.numBits = f.numBits ∧
      (f.unserialize s).2.numHashFunctions = f.numHashFunctions := by
  rw [BloomFilter.unserialize, if_neg (not_not.mpr h)]
  exact ⟨rfl, rfl, rfl⟩

/-- No call changes the size of the filter or its number of hash
functions. -/
theorem call_sizes {f f' : BloomFilter} {c : Call T} (h : f.call env c = some f') :
    f'.numBits = f.numBits ∧ f'.numHashFunctions = f.numHashFunctions := by
  cases c with
  | add v =>
      obtain ⟨_, hbits, hhashes, _⟩ := add_eq env h
      exact ⟨hbits, hhashes⟩
  | clear =>
      obtain rfl := Option.some.inj h
      exact ⟨rfl, rfl⟩
  | unserialize s =>
      obtain rfl := Option.some.inj h
      by_cases hs : s.length = f.numBits
      · exact (unserialize_taken hs).2
      · rw [unserialize_refused hs]
        exact ⟨rfl, rfl⟩

/-- **One call keeps the books.** -/
theorem accounts_call {f f' : BloomFilter} {a : Account T} {c : Call T} (ha : Accounts env f a)
    (h : f.call env c = some f') : Accounts env f' (a.call f.numBits c) := by
  cases c with
  | add v => exact accounts_add env ha h
  | clear =>
      obtain rfl := Option.some.inj h
      exact accounts_empty env fun q => test_reset f.bits q
  | unserialize s =>
      obtain rfl := Option.some.inj h
      rw [Account.call]
      by_cases hs : s.length = f.numBits
      · rw [if_pos hs]
        exact accounts_unserialize env hs
      · rw [if_neg hs, unserialize_refused hs]
        exact ha

/-- What was added passed the assertion. -/
theorem added_notEmpty {f f' : BloomFilter} {a : Account T} {c : Call T} {numBits : Nat}
    (ha : ∀ v ∈ a.added, env.notEmpty v = true) (h : f.call env c = some f') :
    ∀ v ∈ (a.call numBits c).added, env.notEmpty v = true := by
  cases c with
  | add v =>
      intro u hu
      rcases List.mem_append.mp hu with hu | hu
      · exact ha u hu
      · rw [List.mem_singleton.mp hu]
        exact (add_eq env h).1
  | clear => exact fun v hv => absurd hv List.not_mem_nil
  | unserialize s =>
      rw [Account.call]
      split
      · exact fun v hv => absurd hv List.not_mem_nil
      · exact ha

/-- The books of a run, kept call by call. -/
structure InBooks (n : Nat) (p : env.Rate) (tr : List (Call T)) (f : BloomFilter) : Prop where
  numBits : f.numBits = bitSize env n p
  numHashFunctions : f.numHashFunctions = hashCount env n p
  accounts : Accounts env f (account (bitSize env n p) tr)
  notEmpty : ∀ v ∈ (account (bitSize env n p) tr).added, env.notEmpty v = true

theorem run_inBooks {n : Nat} {p : env.Rate} {tr : List (Call T)} {f : BloomFilter}
    (h : (filterLts env n p).Run tr f) : InBooks env n p tr f := by
  refine Lts.Run.invariant (I := InBooks env n p) ?_ ?_ h
  · rintro f rfl
    exact ⟨rfl, rfl, accounts_empty env fun q => test_ofSize _ q,
      fun v hv => absurd hv List.not_mem_nil⟩
  · intro tr f c f' _ hbooks hcall
    obtain ⟨hbits, hhashes⟩ := call_sizes env hcall
    refine ⟨hbits.trans hbooks.numBits, hhashes.trans hbooks.numHashFunctions, ?_, ?_⟩
    · rw [account_snoc, ← hbooks.numBits]
      exact accounts_call env (hbooks.numBits ▸ hbooks.accounts) hcall
    · rw [account_snoc]
      exact added_notEmpty env hbooks.notEmpty hcall

/-- Whatever is in the books is found. -/
theorem contains_of_accounts {f : BloomFilter} {a : Account T} (ha : Accounts env f a) {v : T}
    (hv : v ∈ a.added) (hne : env.notEmpty v = true) : f.contains env v = some true := by
  rw [BloomFilter.contains, if_pos hne, Option.some_inj, List.all_eq_true]
  intro i hi
  exact (ha _).mpr (.inr ⟨v, hv, i, List.mem_range.mp hi, rfl⟩)

/-- A filter of the same shape takes over a serialization bit for bit. -/
theorem unserialize_serialize {f g : BloomFilter} (hbits : g.numBits = f.numBits)
    (hhashes : g.numHashFunctions = f.numHashFunctions) :
    (g.unserialize f.serialize).1 = true ∧
      (∀ q, (g.unserialize f.serialize).2.bits.test q = f.bits.test q) ∧
      ∀ v, (g.unserialize f.serialize).2.contains env v = f.contains env v := by
  obtain ⟨hsize, hcount, htest⟩ := BloomFilter.unserialize_snd hbits.symm
  have hall : ∀ q, (g.unserialize f.serialize).2.bits.test q = f.bits.test q := by
    intro q
    by_cases hq : q < g.numBits
    · exact htest q hq
    · rw [DynamicBitset.test_of_le _ (by rw [BloomFilter.bits_size, hsize]; omega),
        DynamicBitset.test_of_le _ (by rw [BloomFilter.bits_size]; omega)]
  refine ⟨(BloomFilter.unserialize_fst g f).mpr hbits.symm, hall, fun v => ?_⟩
  simp only [BloomFilter.contains, hall, hcount, hsize, hbits, hhashes]

/-- **No false negatives**: behind any run the bits are the last import's
and the positions of the values added since, which are all found; a
refused import changes nothing; and a filter of the same shape that takes
over the serialization has the same bits and gives the same answers. -/
theorem run_no_false_negatives {n : Nat} {p : env.Rate} {tr : List (Call T)} {f : BloomFilter}
    (h : (filterLts env n p).Run tr f) :
    (∀ q, f.bits.test q = true ↔ (account f.numBits tr).imported[q]? = some '1' ∨
        ∃ v ∈ (account f.numBits tr).added, ∃ i < f.numHashFunctions,
          position env f.numBits v i = q) ∧
      (∀ v ∈ (account f.numBits tr).added, f.contains env v = some true) ∧
      (∀ s, (f.unserialize s).1 = false → (f.unserialize s).2 = f) ∧
      ∀ g : BloomFilter, g.numBits = f.numBits → g.numHashFunctions = f.numHashFunctions →
        (g.unserialize f.serialize).1 = true ∧
          (∀ q, (g.unserialize f.serialize).2.bits.test q = f.bits.test q) ∧
          ∀ v, (g.unserialize f.serialize).2.contains env v = f.contains env v := by
  have hbooks := run_inBooks env h
  rw [hbooks.numBits]
  refine ⟨?_, ?_, ?_, ?_⟩
  · intro q
    rw [← hbooks.numBits]
    exact hbooks.numBits ▸ hbooks.accounts q
  · intro v hv
    exact contains_of_accounts env hbooks.accounts hv (hbooks.notEmpty v hv)
  · intro s hs
    by_cases hlen : s.length = f.numBits
    · rw [(unserialize_taken hlen).1] at hs
      cases hs
    · rw [unserialize_refused hlen]
  · intro g hbits hhashes
    exact unserialize_serialize env (hbits.trans hbooks.numBits.symm) hhashes

end

/-- A value added, then an import that is refused. -/
theorem run_no_false_negatives_sample :
    ∃ f : BloomFilter, (filterLts sample 100 (1 / 100 : Rat)).Run [.add 1, .unserialize ['1']] f ∧
      ∀ v ∈ (account f.numBits [.add 1, .unserialize ['1']]).added,
        f.contains sample v = some true := by
  obtain ⟨f, hf⟩ : ∃ f, (bloomFilter sample 100 (1 / 100 : Rat)).call sample (.add 1) = some f :=
    ⟨_, rfl⟩
  have hrun : (filterLts sample 100 (1 / 100 : Rat)).Run ([.add 1] ++ [.unserialize ['1']])
      (f.unserialize ['1']).2 :=
    Lts.Run.snoc (Lts.Run.snoc (.start rfl) hf) rfl
  exact ⟨_, hrun, (run_no_false_negatives sample hrun).2.1⟩

end HighJump.Algo.Bloom
