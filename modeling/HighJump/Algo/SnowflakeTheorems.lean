/-
HighJump.Algo.SnowflakeTheorems — no two calls of `next_id` on one engine
return the same id.

The argument has two halves. Operationally, every section that returns
moves the pair (timestamp, sequence) strictly up in lexicographic order,
whatever the clock reads and whatever other threads did while the caller
slept (`nextIdLock_cases`, `nextIdRelock_cases`, folded into
`Sys.run_cases`); along a run the pairs issued are therefore strictly
increasing (`issued_before`). Arithmetically, the id is
`(timestamp - epoch) mod 2^42`, the worker id and the sequence side by
side (`Issued.id_toNat`), so inside one window of `2^42` milliseconds the
pair can be read back from the id.

The worker id sits BETWEEN the two halves of the pair in the id's bits.
That does not matter for uniqueness; for order it is why the increasing
statement asks for equal worker ids.
-/
import HighJump.Algo.Snowflake

namespace HighJump.Algo.Snowflake

open HighJump.Lib

/-! ## The order the engine climbs -/

/-- `a` was issued under an earlier (timestamp, sequence) pair than `b`. -/
def Before (a b : Issued) : Prop :=
  a.timestamp < b.timestamp ∨ (a.timestamp = b.timestamp ∧ a.seq < b.seq)

theorem Before.trans {a b c : Issued} (h : Before a b) (h' : Before b c) : Before a c := by
  rcases h with h | ⟨h, hs⟩ <;> rcases h' with h' | ⟨h', hs'⟩
  · exact .inl (UInt64.lt_trans h h')
  · exact .inl (h' ▸ h)
  · exact .inl (h ▸ h')
  · exact .inr ⟨h.trans h', UInt64.lt_trans hs hs'⟩

/-- The id the engine would have issued with its present state. -/
def SnowflakeEngine.current (e : SnowflakeEngine) : Issued where
  timestamp := e.lastTimestamp
  workerId := e.workerId
  seq := e.seq

/-- What a section that returns did: the id issued is past everything the
engine had issued, carries the engine's worker id, and is the engine's
present state afterwards. -/
structure Advances (e : SnowflakeEngine) (i : Issued) (e' : SnowflakeEngine) : Prop where
  before : Before e.current i
  current : e'.current = i
  workerId : i.workerId = e.workerId

theorem waitNextMillis_gt {last : UInt64} : ∀ {clock : List UInt64} {r : UInt64 × List UInt64},
    waitNextMillis last clock = some r → last < r.1
  | [], _, h => by simp [waitNextMillis] at h
  | timestamp :: clock, r, h => by
      simp only [waitNextMillis] at h
      split at h
      · exact waitNextMillis_gt h
      · rename_i hle
        simp only [Option.some.injEq] at h
        subst h
        exact UInt64.not_le.mp hle

/-- A sequence that does not wrap to zero is one more than before. -/
theorem seq_succ_gt {seq : UInt64} (hle : seq ≤ seqMask) (hne : (seq + 1) &&& seqMask ≠ 0) :
    seq < (seq + 1) &&& seqMask := by
  have hm : seqMask.toNat = 2 ^ 12 - 1 := by decide
  have hle' : seq.toNat ≤ 2 ^ 12 - 1 := by rw [← hm]; exact UInt64.le_iff_toNat_le.mp hle
  have hval : ((seq + 1) &&& seqMask).toNat = (seq.toNat + 1) % 2 ^ 12 := by
    rw [UInt64.toNat_and, hm, Nat.and_two_pow_sub_one_eq_mod, UInt64.toNat_add]
    simp only [UInt64.reduceToNat]
    omega
  have hne' : ((seq + 1) &&& seqMask).toNat ≠ 0 := by
    intro h
    exact hne (UInt64.toNat_inj.mp (by simpa using h))
  rw [UInt64.lt_iff_toNat_lt, hval]
  rw [hval] at hne'
  omega

/-- From a timestamp that is not behind, the rest of `next_id` advances
the engine. -/
theorem finish_advances {e e' : SnowflakeEngine} {timestamp : UInt64} {clock : List UInt64}
    {i : Issued} (hle : e.lastTimestamp ≤ timestamp)
    (h : e.finish timestamp clock = some (e', i)) : Advances e i e' := by
  simp only [SnowflakeEngine.finish] at h
  split at h
  · rename_i heq
    split at h
    · -- the sequence wrapped: the timestamp is the first one past the last
      simp only [Option.map_eq_some_iff] at h
      obtain ⟨r, hr, h⟩ := h
      simp only [SnowflakeEngine.accept, Prod.mk.injEq] at h
      obtain ⟨rfl, rfl⟩ := h
      exact ⟨.inl (waitNextMillis_gt hr), rfl, rfl⟩
    · rename_i hne
      simp only [SnowflakeEngine.accept, Option.some.injEq, Prod.mk.injEq] at h
      obtain ⟨rfl, rfl⟩ := h
      exact ⟨.inr ⟨heq.symm, seq_succ_gt e.seq_le hne⟩, rfl, rfl⟩
  · rename_i hne
    simp only [SnowflakeEngine.accept, Option.some.injEq, Prod.mk.injEq] at h
    obtain ⟨rfl, rfl⟩ := h
    exact ⟨.inl (UInt64.lt_of_le_of_ne hle (Ne.symm hne)), rfl, rfl⟩

/-- What a critical section of `next_id` can do: leave the engine alone
without returning, or return an id that advances it. -/
def SectionSpec (e e' : SnowflakeEngine) (o : Outcome) : Prop :=
  (e' = e ∧ ∀ i, o ≠ .returned i) ∨ ∃ i, o = .returned i ∧ Advances e i e'

theorem nextIdLock_cases {e e' : SnowflakeEngine} {clock : List UInt64} {o : Outcome}
    (h : e.nextIdLock clock = some (e', o)) : SectionSpec e e' o := by
  cases clock with
  | nil => simp [SnowflakeEngine.nextIdLock] at h
  | cons timestamp clock =>
    simp only [SnowflakeEngine.nextIdLock] at h
    split at h
    · split at h <;>
        · simp only [Option.some.injEq, Prod.mk.injEq] at h
          obtain ⟨rfl, rfl⟩ := h
          exact .inl ⟨rfl, by simp⟩
    · rename_i hlt
      simp only [Option.map_eq_some_iff, Prod.mk.injEq] at h
      obtain ⟨⟨e1, i⟩, hf, rfl, rfl⟩ := h
      exact .inr ⟨i, rfl, finish_advances (UInt64.not_lt.mp hlt) hf⟩

theorem nextIdRelock_cases {e e' : SnowflakeEngine} {clock : List UInt64} {o : Outcome}
    (h : e.nextIdRelock clock = some (e', o)) : ∃ i, o = .returned i ∧ Advances e i e' := by
  cases clock with
  | nil => simp [SnowflakeEngine.nextIdRelock] at h
  | cons timestamp clock =>
    simp only [SnowflakeEngine.nextIdRelock] at h
    split at h
    · simp only [Option.bind_eq_some_iff, Option.map_eq_some_iff, Prod.mk.injEq] at h
      obtain ⟨w, hw, ⟨e1, i⟩, hf, rfl, rfl⟩ := h
      exact ⟨i, rfl, finish_advances (UInt64.le_of_lt (waitNextMillis_gt hw)) hf⟩
    · rename_i hlt
      simp only [Option.map_eq_some_iff, Prod.mk.injEq] at h
      obtain ⟨⟨e1, i⟩, hf, rfl, rfl⟩ := h
      exact ⟨i, rfl, finish_advances (UInt64.not_lt.mp hlt) hf⟩

/-! ## Along a run -/

variable {τ : Type} [DecidableEq τ]

/-- Everything one step of the system can do to the engine: nothing is
issued and the clock pair stays, or one id is issued and advances it. -/
theorem Sys.run_cases {s s' : Sys τ} {a : Event τ} (h : (lts τ).step s a s') :
    (a.issued? = none ∧ s'.engine.lastTimestamp = s.engine.lastTimestamp ∧
      s'.engine.seq = s.engine.seq) ∨
    ∃ i, a.issued? = some i ∧ Advances s.engine i s'.engine := by
  obtain ⟨t, sec, o⟩ := a
  simp only [lts] at h
  cases sec with
  | lock clock =>
    simp only [Sys.run] at h
    split at h
    · simp only [Option.map_eq_some_iff, Prod.mk.injEq] at h
      obtain ⟨⟨e1, o1⟩, hl, rfl, rfl⟩ := h
      rcases nextIdLock_cases hl with ⟨rfl, hne⟩ | ⟨i, rfl, hadv⟩
      · refine .inl ⟨?_, rfl, rfl⟩
        cases o1 with
        | returned i => exact absurd rfl (hne i)
        | _ => rfl
      · exact .inr ⟨i, rfl, hadv⟩
    · cases h
  | relock clock =>
    simp only [Sys.run] at h
    split at h
    · simp only [Option.map_eq_some_iff, Prod.mk.injEq] at h
      obtain ⟨⟨e1, o1⟩, hl, rfl, rfl⟩ := h
      obtain ⟨i, rfl, hadv⟩ := nextIdRelock_cases hl
      exact .inr ⟨i, rfl, hadv⟩
    · cases h
  | resetWorkerId w =>
    simp only [Sys.run] at h
    split at h
    · simp only [Option.some.injEq, Prod.mk.injEq] at h
      obtain ⟨rfl, rfl⟩ := h
      refine .inl ⟨rfl, ?_⟩
      simp only [SnowflakeEngine.resetWorkerId]
      split <;> exact ⟨rfl, rfl⟩
    · cases h

/-- A call that throws leaves the whole engine as it was. -/
theorem Sys.run_threw {s s' : Sys τ} {a : Event τ} (h : (lts τ).step s a s')
    (ho : a.outcome = some .threw) : s'.engine = s.engine := by
  obtain ⟨t, sec, o⟩ := a
  simp only [lts] at h ho
  subst ho
  cases sec with
  | lock clock =>
    simp only [Sys.run] at h
    split at h
    · simp only [Option.map_eq_some_iff, Prod.mk.injEq, Option.some.injEq] at h
      obtain ⟨⟨e1, o1⟩, hl, rfl, rfl⟩ := h
      rcases nextIdLock_cases hl with ⟨rfl, -⟩ | ⟨i, hi, -⟩
      · rfl
      · cases hi
    · cases h
  | relock clock =>
    simp only [Sys.run] at h
    split at h
    · simp only [Option.map_eq_some_iff, Prod.mk.injEq, Option.some.injEq] at h
      obtain ⟨⟨e1, o1⟩, hl, rfl, rfl⟩ := h
      obtain ⟨i, hi, -⟩ := nextIdRelock_cases hl
      cases hi
    · cases h
  | resetWorkerId w =>
    simp only [Sys.run] at h
    split at h
    · simp at h
    · cases h

/-- The run invariant: the pairs issued so far climb, none is past the
engine's present pair, and each id's fields fit their bits. -/
structure Climbs (is : List Issued) (e : SnowflakeEngine) : Prop where
  pairwise : is.Pairwise Before
  last : ∀ i ∈ is, i.timestamp = e.lastTimestamp ∧ i.seq = e.seq ∨ Before i e.current
  bounds : ∀ i ∈ is, i.workerId ≤ maxWorkerId ∧ i.seq ≤ seqMask

theorem Climbs.advance {is : List Issued} {e e' : SnowflakeEngine} {i : Issued}
    (h : Climbs is e) (ha : Advances e i e') : Climbs (is ++ [i]) e' := by
  have hlt : ∀ j ∈ is, Before j i := by
    intro j hj
    rcases h.last j hj with ⟨ht, hs⟩ | hb
    · rcases ha.before with h1 | ⟨h1, h2⟩
      · exact .inl (ht ▸ h1)
      · exact .inr ⟨ht.trans h1, hs ▸ h2⟩
    · exact hb.trans ha.before
  refine ⟨?_, ?_, ?_⟩
  · rw [List.pairwise_append]
    refine ⟨h.pairwise, List.pairwise_singleton _ _, ?_⟩
    intro j hj k hk
    rw [List.mem_singleton.mp hk]
    exact hlt j hj
  · intro j hj
    rcases List.mem_append.mp hj with hj | hj
    · exact .inr (ha.current ▸ hlt j hj)
    · rw [List.mem_singleton.mp hj, ← ha.current]
      exact .inl ⟨rfl, rfl⟩
  · intro j hj
    rcases List.mem_append.mp hj with hj | hj
    · exact h.bounds j hj
    · rw [List.mem_singleton.mp hj]
      refine ⟨ha.workerId ▸ e.workerId_le, ?_⟩
      rw [← ha.current]
      exact e'.seq_le

/-- What one step keeps: the pair it issues, if any, is past all others. -/
theorem Climbs.step {is : List Issued} {s s' : Sys τ} {a : Event τ} (h : Climbs is s.engine)
    (hstep : (lts τ).step s a s') : Climbs (is ++ a.issued?.toList) s'.engine := by
  rcases Sys.run_cases hstep with ⟨hnone, ht, hq⟩ | ⟨i, hsome, hadv⟩
  · rw [hnone, Option.toList_none, List.append_nil]
    refine ⟨h.pairwise, ?_, h.bounds⟩
    intro i hmem
    simpa only [Before, SnowflakeEngine.current, ht, hq] using h.last i hmem
  · rw [hsome]
    exact h.advance hadv

/-- Every run climbs. -/
theorem issued_climbs {tr : List (Event τ)} {s : Sys τ} (h : (lts τ).Run tr s) :
    Climbs (issued tr) s.engine := by
  refine Lts.Run.invariant (I := fun tr s => Climbs (issued tr) s.engine) ?_ ?_ h
  · intro s _
    exact ⟨List.Pairwise.nil, by simp [issued], by simp [issued]⟩
  · intro tr s a s' _ hi hs
    have hiss : issued (tr ++ [a]) = issued tr ++ a.issued?.toList := by
      cases ha : a.issued? <;> simp [issued, ha]
    rw [hiss]
    exact hi.step hs

/-! ## The bits of an id -/

/-- The fields of an id as numbers, within the bits they get. -/
theorem Issued.fields_lt {i : Issued} (h : i.workerId ≤ maxWorkerId ∧ i.seq ≤ seqMask) :
    i.workerId.toNat < 2 ^ 10 ∧ i.seq.toNat < 2 ^ 12 := by
  have h1 := UInt64.le_iff_toNat_le.mp h.1
  have h2 := UInt64.le_iff_toNat_le.mp h.2
  have hm : maxWorkerId.toNat = 2 ^ 10 - 1 := by decide
  have hq : seqMask.toNat = 2 ^ 12 - 1 := by decide
  omega

/-- The three fields of an id lie side by side: 42 bits of time, 10 of
worker id, 12 of sequence. -/
theorem Issued.id_toNat {i : Issued} (h : i.workerId ≤ maxWorkerId ∧ i.seq ≤ seqMask) :
    i.id.toNat = ((i.timestamp - epoch).toNat % 2 ^ 42) * 2 ^ 22 + i.workerId.toNat * 2 ^ 12
      + i.seq.toNat := by
  obtain ⟨hw, hs⟩ := Issued.fields_lt h
  have hts : timestampShift.toNat % 64 = 22 := by decide
  have hws : workerIdShift.toNat % 64 = 12 := by decide
  have htime : ((i.timestamp - epoch) <<< timestampShift).toNat
      = ((i.timestamp - epoch).toNat % 2 ^ 42) <<< 22 := by
    rw [UInt64.toNat_shiftLeft, hts, Nat.shiftLeft_eq, Nat.shiftLeft_eq]
    omega
  have hwork : (i.workerId <<< workerIdShift).toNat = i.workerId.toNat <<< 12 := by
    rw [UInt64.toNat_shiftLeft, hws, Nat.shiftLeft_eq]
    omega
  have hlow : i.workerId.toNat <<< 12 + i.seq.toNat < 2 ^ 22 := by
    rw [Nat.shiftLeft_eq]
    omega
  rw [Issued.id, UInt64.toNat_or, UInt64.toNat_or, htime, hwork, Nat.or_assoc,
    ← Nat.shiftLeft_add_eq_or_of_lt hs, ← Nat.shiftLeft_add_eq_or_of_lt hlow,
    Nat.shiftLeft_eq, Nat.shiftLeft_eq]
  omega

/-- The timestamp of an id lies in the `2^42` ms window from `base`. -/
def Issued.InWindow (i : Issued) (base : Nat) : Prop :=
  base ≤ i.timestamp.toNat ∧ i.timestamp.toNat < base + 2 ^ 42

/-- Two times of one window agree modulo `2^42` only if they are equal. -/
theorem timestamp_eq_of_window {a b : Issued} {base : Nat} (ha : a.InWindow base)
    (hb : b.InWindow base)
    (h : (a.timestamp - epoch).toNat % 2 ^ 42 = (b.timestamp - epoch).toNat % 2 ^ 42) :
    a.timestamp = b.timestamp := by
  rw [UInt64.toNat_sub, UInt64.toNat_sub] at h
  apply UInt64.toNat_inj.mp
  have he : epoch.toNat = 1735689600000 := by decide
  rw [he] at h
  obtain ⟨ha1, ha2⟩ := ha
  obtain ⟨hb1, hb2⟩ := hb
  omega

/-- Inside one window the pair can be read back from the id. -/
theorem id_ne_of_before {a b : Issued} {base : Nat} (hab : Before a b)
    (ha : a.workerId ≤ maxWorkerId ∧ a.seq ≤ seqMask)
    (hb : b.workerId ≤ maxWorkerId ∧ b.seq ≤ seqMask)
    (hwa : a.InWindow base) (hwb : b.InWindow base) : a.id ≠ b.id := by
  intro h
  have hn := congrArg UInt64.toNat h
  rw [Issued.id_toNat ha, Issued.id_toNat hb] at hn
  have hfa := Issued.fields_lt ha
  have hfb := Issued.fields_lt hb
  have htime : (a.timestamp - epoch).toNat % 2 ^ 42 = (b.timestamp - epoch).toNat % 2 ^ 42 := by
    omega
  have hts := timestamp_eq_of_window hwa hwb htime
  have hseq : a.seq.toNat = b.seq.toNat := by omega
  rcases hab with hlt | ⟨-, hlt⟩
  · exact absurd hts (UInt64.ne_of_lt hlt)
  · exact absurd (UInt64.toNat_inj.mp hseq) (UInt64.ne_of_lt hlt)

/-- From the epoch on, under one worker id, a later pair has a larger id. -/
theorem id_lt_of_before {a b : Issued} (hab : Before a b)
    (ha : a.workerId ≤ maxWorkerId ∧ a.seq ≤ seqMask)
    (hb : b.workerId ≤ maxWorkerId ∧ b.seq ≤ seqMask) (hw : a.workerId = b.workerId)
    (hwa : a.InWindow epoch.toNat) (hwb : b.InWindow epoch.toNat) : a.id < b.id := by
  have hfa := Issued.fields_lt ha
  have hfb := Issued.fields_lt hb
  have hta : (a.timestamp - epoch).toNat = a.timestamp.toNat - epoch.toNat :=
    UInt64.toNat_sub_of_le _ _ (UInt64.le_iff_toNat_le.mpr hwa.1)
  have htb : (b.timestamp - epoch).toNat = b.timestamp.toNat - epoch.toNat :=
    UInt64.toNat_sub_of_le _ _ (UInt64.le_iff_toNat_le.mpr hwb.1)
  rw [UInt64.lt_iff_toNat_lt, Issued.id_toNat ha, Issued.id_toNat hb, ← hw, hta, htb]
  obtain ⟨hwa1, hwa2⟩ := hwa
  obtain ⟨hwb1, hwb2⟩ := hwb
  rcases hab with hlt | ⟨heq, hlt⟩
  · have := UInt64.lt_iff_toNat_lt.mp hlt
    omega
  · have := UInt64.lt_iff_toNat_lt.mp hlt
    rw [heq]
    omega

/-! ## The main theorem -/

/-- **Snowflake uniqueness.** Over every run, of any threads, in any
interleaving of their critical sections and under any clock readings: if
the accepted timestamps share one window of `2^42` ms the ids are
pairwise distinct; under one worker id and from the epoch on they are
strictly increasing in the order the calls left their last section; and
a call that throws leaves the clock pair as it found it. -/
theorem nextId_unique {tr : List (Event τ)} {s : Sys τ} (h : (lts τ).Run tr s) :
    (∀ base : Nat, (∀ i ∈ issued tr, i.InWindow base) → ((issued tr).map Issued.id).Nodup) ∧
    (issued tr).Pairwise (fun a b => a.workerId = b.workerId →
      a.InWindow epoch.toNat → b.InWindow epoch.toNat → a.id < b.id) ∧
    (∀ (a : Event τ) (s' : Sys τ), (lts τ).step s a s' → a.outcome = some .threw →
      s'.engine.lastTimestamp = s.engine.lastTimestamp ∧ s'.engine.seq = s.engine.seq) := by
  have hc := issued_climbs h
  have hpair := List.Pairwise.and_mem.mp hc.pairwise
  refine ⟨?_, ?_, ?_⟩
  · intro base hwin
    rw [List.Nodup, List.pairwise_map]
    refine hpair.imp ?_
    rintro a b ⟨ha, hb, hab⟩
    exact id_ne_of_before hab (hc.bounds a ha) (hc.bounds b hb) (hwin a ha) (hwin b hb)
  · refine hpair.imp ?_
    rintro a b ⟨ha, hb, hab⟩ hw hwa hwb
    exact id_lt_of_before hab (hc.bounds a ha) (hc.bounds b hb) hw hwa hwb
  · intro a s' hs ho
    rw [Sys.run_threw hs ho]
    exact ⟨rfl, rfl⟩

/-- Two threads: the second reads a clock 2 ms behind, sleeps, the first
changes the worker id and issues again in the same millisecond, and the
sleeper wakes to a clock that is still behind. -/
theorem nextId_unique_two_threads :
    ∃ (tr : List (Event Bool)) (s : Sys Bool), (lts Bool).Run tr s ∧
      (issued tr).map Issued.seq = [0, 1, 0] ∧ ((issued tr).map Issued.id).Nodup := by
  have h0 : (lts Bool).Run []
      ⟨⟨1, 0, 0, by decide, by decide⟩, fun _ => .idle⟩ := .start ⟨⟨1, rfl⟩, fun _ => rfl⟩
  have h1 := h0.snoc (a := ⟨false, .lock [epoch + 5],
    some (.returned ⟨epoch + 5, 1, 0⟩)⟩) (by exact rfl)
  have h2 := h1.snoc (a := ⟨true, .lock [epoch + 3], some (.asleep 2)⟩) (by exact rfl)
  have h3 := h2.snoc (a := ⟨false, .resetWorkerId 7, none⟩) (by exact rfl)
  have h4 := h3.snoc (a := ⟨false, .lock [epoch + 5],
    some (.returned ⟨epoch + 5, 7, 1⟩)⟩) (by exact rfl)
  have h5 := h4.snoc (a := ⟨true, .relock [epoch + 4, epoch + 5, epoch + 6],
    some (.returned ⟨epoch + 6, 7, 0⟩)⟩) (by exact rfl)
  refine ⟨_, _, h5, by decide, (nextId_unique h5).1 epoch.toNat ?_⟩
  simp only [Issued.InWindow]
  decide

end HighJump.Algo.Snowflake
