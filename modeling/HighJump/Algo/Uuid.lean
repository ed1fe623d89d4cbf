/-
HighJump.Algo.Uuid — the UUID strings of a fleet of snowflake engines.

`rfc_uuid_format` writes an id and a seed as a UUID of version 8: it puts
the version into bits 12 to 15 of the id and the variant into the top bits
of the seed. Bits 12 to 15 of an id are the low four bits of its worker
id, so a string tells engines apart only by what is left of their worker
ids: `fleet_distinct_iff`.

The engines of a fleet are those of `Algo/Snowflake`, each with its own
threads and its own worker id. Every call carries the value its thread's
seed has then; nothing is assumed about these.
-/
import HighJump.Algo.SnowflakeTheorems
import HighJump.Lib.Format
import HighJump.Lib.MachineInt

namespace HighJump.Algo.Uuid

open HighJump.Lib HighJump.Algo.Snowflake

/-! ## The format -/

/-- `rfc_high` -/
def rfcHigh (high : UInt64) : UInt64 := (high &&& 0xFFFFFFFFFFFF0FFF) ||| 0x0000000000008000

/-- `rfc_low` -/
def rfcLow (low : UInt64) : UInt64 := (low &&& 0x3FFFFFFFFFFFFFFF) ||| 0x8000000000000000

/-- `'-'` -/
def dash : UInt8 := 0x2D

/-- `rfc_uuid_format`: `snprintf` into a buffer of 37 with the format
`%08x-%04x-%04x-%04x-%012llx`, and the first 36 characters of that. -/
def rfcUuidFormat (high low : UInt64) : List UInt8 :=
  let rfcHigh := rfcHigh high
  let rfcLow := rfcLow low
  (printfHex 8 (rfcHigh >>> 32).toUInt32.toNat ++ dash ::
    (printfHex 4 ((rfcHigh >>> 16) &&& 0xFFFF).toUInt16.toNat ++ dash ::
      (printfHex 4 (rfcHigh &&& 0xFFFF).toUInt16.toNat ++ dash ::
        (printfHex 4 ((rfcLow >>> 48) &&& 0xFFFF).toUInt16.toNat ++ dash ::
          printfHex 12 (rfcLow &&& 0xFFFFFFFFFFFF).toNat)))).take 36

/-! ## The fleet -/

/-- One section of a thread of one engine, and the thread's seed. -/
structure Step (ι τ : Type) where
  engine : ι
  event : Event τ
  seed : UInt64

variable {ι τ : Type} [DecidableEq ι] [DecidableEq τ]

/-- The engines `ι` with the worker ids `worker`, and the sections of their
threads in any order; worker ids are not changed. -/
def fleet (ι τ : Type) [DecidableEq ι] [DecidableEq τ] (worker : ι → UInt64) :
    Lts (ι → Sys τ) (Step ι τ) where
  init s := ∀ i, SnowflakeEngine.mk? (worker i) = some (s i).engine ∧ ∀ t, (s i).pc t = .idle
  step s a s' := (∀ w, a.event.section_ ≠ .resetWorkerId w) ∧
    ∃ si, (lts τ).step (s a.engine) a.event si ∧ s' = Function.update s a.engine si

/-- What a call put into its string. -/
structure Call (ι : Type) where
  engine : ι
  issued : Issued
  seed : UInt64

/-- The call a step completes, if it completes one. -/
def Step.call? (a : Step ι τ) : Option (Call ι) :=
  a.event.issued?.map fun i => { engine := a.engine, issued := i, seed := a.seed }

/-- The calls of a run that returned, in order. -/
def calls (tr : List (Step ι τ)) : List (Call ι) := tr.filterMap Step.call?

/-- `rfc_uuid_format(next_id, seed)` -/
def Call.gen (c : Call ι) : List UInt8 := rfcUuidFormat c.issued.id c.seed

/-! ## What is left of an id -/

/-- The version takes the place of bits 12 to 15. -/
theorem rfcHigh_toNat (high : UInt64) :
    (rfcHigh high).toNat = high.toNat / 2 ^ 16 * 2 ^ 16 + 2 ^ 15 + high.toNat % 2 ^ 12 := by
  have hlt : high.toNat < 2 ^ 64 := high.toNat_lt
  have hlow : high.toNat % 2 ^ 16 &&& 0x0FFF = high.toNat % 2 ^ 12 := by
    rw [Nat.and_two_pow_sub_one_eq_mod _ 12, Nat.mod_mod_of_dvd _ (by decide)]
  have htop : high.toNat / 2 ^ 16 &&& 0xFFFFFFFFFFFF = high.toNat / 2 ^ 16 := by
    rw [Nat.and_two_pow_sub_one_eq_mod _ 48, Nat.mod_eq_of_lt (by omega)]
  have hand : high.toNat &&& 0xFFFFFFFFFFFF0FFF =
      2 ^ 16 * (high.toNat / 2 ^ 16) + high.toNat % 2 ^ 12 := by
    have hsplit := and_split (k := 16) (a := high.toNat / 2 ^ 16) (b := high.toNat % 2 ^ 16)
      (m := 0xFFFFFFFFFFFF) (c := 0x0FFF) (Nat.mod_lt _ (by decide)) (by decide)
    rw [Nat.div_add_mod, hlow, htop] at hsplit
    exact hsplit
  have hor := or_split (k := 16) (a := high.toNat / 2 ^ 16) (b := high.toNat % 2 ^ 12) (m := 0)
    (c := 2 ^ 15) (by omega) (by decide)
  have hversion : high.toNat % 2 ^ 12 ||| 2 ^ 15 = 2 ^ 15 + high.toNat % 2 ^ 12 := by
    have h := Nat.two_pow_add_eq_or_of_lt (i := 15) (b := high.toNat % 2 ^ 12) (by omega) 1
    rw [Nat.mul_one] at h
    rw [Nat.or_comm, ← h]
  rw [Nat.or_zero, hversion] at hor
  rw [rfcHigh, UInt64.toNat_or, UInt64.toNat_and]
  change high.toNat &&& 0xFFFFFFFFFFFF0FFF ||| 2 ^ 15 = _
  rw [hand, show (2 : Nat) ^ 15 = 2 ^ 16 * 0 + 2 ^ 15 by decide, hor]
  omega

/-- The variant takes the place of the top two bits. -/
theorem rfcLow_toNat (low : UInt64) : (rfcLow low).toNat = 2 ^ 63 + low.toNat % 2 ^ 62 := by
  have hand : low.toNat &&& 0x3FFFFFFFFFFFFFFF = low.toNat % 2 ^ 62 :=
    Nat.and_two_pow_sub_one_eq_mod _ 62
  have hor := Nat.two_pow_add_eq_or_of_lt (i := 63) (b := low.toNat % 2 ^ 62) (by omega) 1
  rw [Nat.mul_one] at hor
  rw [rfcLow, UInt64.toNat_or, UInt64.toNat_and]
  change low.toNat &&& 0x3FFFFFFFFFFFFFFF ||| 2 ^ 63 = _
  rw [hand, Nat.or_comm, hor]

/-! ## The five fields -/

theorem toNat_field (x : UInt64) (k : UInt64) (hk : k.toNat < 64) :
    ((x >>> k) &&& 0xFFFF).toUInt16.toNat = x.toNat / 2 ^ k.toNat % 2 ^ 16 := by
  rw [UInt64.toNat_toUInt16, UInt64.toNat_and, UInt64.toNat_shiftRight, Nat.mod_eq_of_lt hk,
    Nat.shiftRight_eq_div_pow]
  change (x.toNat / 2 ^ k.toNat &&& 2 ^ 16 - 1) % 2 ^ 16 = _
  rw [Nat.and_two_pow_sub_one_eq_mod, Nat.mod_mod]

/-- The string, field by field. -/
theorem rfcUuidFormat_eq (high low : UInt64) :
    rfcUuidFormat high low =
      fixedHex 8 ((rfcHigh high).toNat / 2 ^ 32) ++ dash ::
        (fixedHex 4 ((rfcHigh high).toNat / 2 ^ 16 % 2 ^ 16) ++ dash ::
          (fixedHex 4 ((rfcHigh high).toNat % 2 ^ 16) ++ dash ::
            (fixedHex 4 ((rfcLow low).toNat / 2 ^ 48) ++ dash ::
              fixedHex 12 ((rfcLow low).toNat % 2 ^ 48)))) := by
  have hhigh : (rfcHigh high).toNat < 2 ^ 64 := (rfcHigh high).toNat_lt
  have hlow : (rfcLow low).toNat < 2 ^ 64 := (rfcLow low).toNat_lt
  have h8 : ((rfcHigh high) >>> 32).toUInt32.toNat = (rfcHigh high).toNat / 2 ^ 32 := by
    rw [UInt64.toNat_toUInt32, UInt64.toNat_shiftRight, Nat.shiftRight_eq_div_pow]
    change (rfcHigh high).toNat / 2 ^ 32 % 2 ^ 32 = _
    omega
  have h16 : (((rfcHigh high) >>> 16) &&& 0xFFFF).toUInt16.toNat =
      (rfcHigh high).toNat / 2 ^ 16 % 2 ^ 16 := toNat_field _ 16 (by decide)
  have h0 : ((rfcHigh high) &&& 0xFFFF).toUInt16.toNat = (rfcHigh high).toNat % 2 ^ 16 := by
    rw [UInt64.toNat_toUInt16, UInt64.toNat_and]
    change ((rfcHigh high).toNat &&& 2 ^ 16 - 1) % 2 ^ 16 = _
    rw [Nat.and_two_pow_sub_one_eq_mod, Nat.mod_mod]
  have h48 : (((rfcLow low) >>> 48) &&& 0xFFFF).toUInt16.toNat = (rfcLow low).toNat / 2 ^ 48 := by
    rw [toNat_field _ 48 (by decide)]
    change (rfcLow low).toNat / 2 ^ 48 % 2 ^ 16 = _
    omega
  have h12 : ((rfcLow low) &&& 0xFFFFFFFFFFFF).toNat = (rfcLow low).toNat % 2 ^ 48 := by
    rw [UInt64.toNat_and]
    exact Nat.and_two_pow_sub_one_eq_mod _ 48
  rw [rfcUuidFormat, h8, h16, h0, h48, h12, printfHex_eq (by decide) (by omega),
    printfHex_eq (by decide) (by omega), printfHex_eq (by decide) (by omega),
    printfHex_eq (by decide) (by omega), printfHex_eq (by decide) (by omega)]
  refine List.take_of_length_le ?_
  simp [length_fixedHex]

/-- `8-4-4-4-12` lower-case digits, version 8, variant 10. -/
def IsUuid (s : List UInt8) : Prop :=
  s.length = 36 ∧ ∃ a b c d e : List UInt8,
    a.length = 8 ∧ b.length = 4 ∧ c.length = 4 ∧ d.length = 4 ∧ e.length = 12 ∧
    s = a ++ dash :: (b ++ dash :: (c ++ dash :: (d ++ dash :: e))) ∧
    (∀ x ∈ a ++ b ++ c ++ d ++ e, ∃ v < 16, x = lowerDigit v) ∧
    c.head? = some (lowerDigit 8) ∧ ∃ v, d.head? = some (lowerDigit v) ∧ v / 4 = 2

theorem head_fixedHex_four (n : Nat) :
    (fixedHex 4 n).head? = some (lowerDigit (n / 16 / 16 / 16 % 16)) := rfl

/-- **Every string is a UUID.** -/
theorem isUuid_rfcUuidFormat (high low : UInt64) : IsUuid (rfcUuidFormat high low) := by
  rw [rfcUuidFormat_eq]
  refine ⟨by simp [length_fixedHex], _, _, _, _, _, length_fixedHex _ _, length_fixedHex _ _,
    length_fixedHex _ _, length_fixedHex _ _, length_fixedHex _ _, rfl, ?_, ?_, _,
    head_fixedHex_four _, ?_⟩
  · intro x hx
    simp only [List.mem_append] at hx
    rcases hx with (((hx | hx) | hx) | hx) | hx
    all_goals exact mem_fixedHex hx
  · rw [head_fixedHex_four]
    have hversion : (rfcHigh high).toNat % 2 ^ 16 / 16 / 16 / 16 % 16 = 8 := by
      rw [rfcHigh_toNat]
      omega
    rw [hversion]
  · rw [rfcLow_toNat]
    omega

/-- A string gives back the id up to the four bits of the version. -/
theorem high_of_rfcUuidFormat {high high' low low' : UInt64}
    (h : rfcUuidFormat high low = rfcUuidFormat high' low') :
    high.toNat / 2 ^ 16 = high'.toNat / 2 ^ 16 ∧ high.toNat % 2 ^ 12 = high'.toNat % 2 ^ 12 := by
  have hlt : (rfcHigh high).toNat < 2 ^ 64 := (rfcHigh high).toNat_lt
  have hlt' : (rfcHigh high').toNat < 2 ^ 64 := (rfcHigh high').toNat_lt
  rw [rfcUuidFormat_eq, rfcUuidFormat_eq] at h
  obtain ⟨h8, h⟩ := List.append_inj h (by rw [length_fixedHex, length_fixedHex])
  obtain ⟨h4, h⟩ := List.append_inj (List.cons.inj h).2 (by rw [length_fixedHex, length_fixedHex])
  obtain ⟨h0, -⟩ := List.append_inj (List.cons.inj h).2 (by rw [length_fixedHex, length_fixedHex])
  have e8 := fixedHex_inj (by omega) (by omega) h8
  have e4 := fixedHex_inj (by omega) (by omega) h4
  have e0 := fixedHex_inj (by omega) (by omega) h0
  have hsame : (rfcHigh high).toNat = (rfcHigh high').toNat := by omega
  rw [rfcHigh_toNat, rfcHigh_toNat] at hsame
  omega

/-- Nothing else of the id is in the string. -/
theorem rfcUuidFormat_congr {high high' : UInt64} (low : UInt64)
    (htop : high.toNat / 2 ^ 16 = high'.toNat / 2 ^ 16)
    (hlow : high.toNat % 2 ^ 12 = high'.toNat % 2 ^ 12) :
    rfcUuidFormat high low = rfcUuidFormat high' low := by
  rw [rfcUuidFormat_eq, rfcUuidFormat_eq, rfcHigh_toNat, rfcHigh_toNat, htop, hlow]

/-! ## Along a run of the fleet -/

/-- A section of `next_id` does not touch the worker id. -/
theorem run_workerId {s s' : Sys τ} {a : Event τ} (h : (lts τ).step s a s')
    (hnext : ∀ w, a.section_ ≠ .resetWorkerId w) : s'.engine.workerId = s.engine.workerId := by
  have hadvances : ∀ {e e' : SnowflakeEngine} {i : Issued}, Advances e i e' →
      e'.workerId = e.workerId := by
    intro e e' i hadv
    rw [← hadv.workerId, ← hadv.current]
    rfl
  obtain ⟨t, sec, o⟩ := a
  simp only [lts] at h
  cases sec with
  | lock clock =>
      simp only [Sys.run] at h
      split at h
      · simp only [Option.map_eq_some_iff, Prod.mk.injEq] at h
        obtain ⟨⟨e1, o1⟩, hl, rfl, rfl⟩ := h
        rcases nextIdLock_cases hl with ⟨rfl, -⟩ | ⟨i, rfl, hadv⟩
        · rfl
        · exact hadvances hadv
      · cases h
  | relock clock =>
      simp only [Sys.run] at h
      split at h
      · simp only [Option.map_eq_some_iff, Prod.mk.injEq] at h
        obtain ⟨⟨e1, o1⟩, hl, rfl, rfl⟩ := h
        obtain ⟨i, rfl, hadv⟩ := nextIdRelock_cases hl
        exact hadvances hadv
      · cases h
  | resetWorkerId w => exact absurd rfl (hnext w)

/-- What engine `i` issued. -/
def issuedBy (i : ι) (cs : List (Call ι)) : List Issued :=
  (cs.filter fun c => c.engine = i).map Call.issued

/-- The run invariant: every engine climbs on its own and keeps its worker
id. -/
structure FleetClimbs (worker : ι → UInt64) (cs : List (Call ι)) (s : ι → Sys τ) : Prop where
  workerId : ∀ i, (s i).engine.workerId = worker i
  climbs : ∀ i, Climbs (issuedBy i cs) (s i).engine
  carries : ∀ c ∈ cs, c.issued.workerId = worker c.engine

omit [DecidableEq ι] [DecidableEq τ] in
theorem calls_snoc (tr : List (Step ι τ)) (a : Step ι τ) :
    calls (tr ++ [a]) = calls tr ++ a.call?.toList := by
  cases ha : a.call? <;> simp [calls, ha]

omit [DecidableEq τ] in
theorem issuedBy_call (i : ι) (a : Step ι τ) :
    issuedBy i a.call?.toList = if i = a.engine then a.event.issued?.toList else [] := by
  cases ha : a.event.issued? with
  | none => simp [Step.call?, ha, issuedBy]
  | some is => by_cases hi : i = a.engine <;> simp [Step.call?, ha, issuedBy, hi, Ne.symm]

theorem issuedBy_append (i : ι) (cs cs' : List (Call ι)) :
    issuedBy i (cs ++ cs') = issuedBy i cs ++ issuedBy i cs' := by
  rw [issuedBy, List.filter_append, List.map_append]
  rfl

section Step

variable {worker : ι → UInt64} {cs : List (Call ι)} {s : ι → Sys τ} {a : Step ι τ} {si : Sys τ}

/-- What one step of the fleet keeps. -/
theorem FleetClimbs.step (h : FleetClimbs worker cs s)
    (hnext : ∀ w, a.event.section_ ≠ .resetWorkerId w)
    (hstep : (lts τ).step (s a.engine) a.event si) :
    FleetClimbs worker (cs ++ a.call?.toList) (Function.update s a.engine si) := by
  refine ⟨fun i => ?_, fun i => ?_, fun c hc => ?_⟩
  · by_cases hi : i = a.engine
    · rw [hi, Function.update_self, run_workerId hstep hnext, h.workerId]
    · rw [Function.update_of_ne hi, h.workerId]
  · rw [issuedBy_append, issuedBy_call]
    by_cases hi : i = a.engine
    · rw [if_pos hi, hi, Function.update_self]
      exact (h.climbs a.engine).step hstep
    · rw [if_neg hi, List.append_nil, Function.update_of_ne hi]
      exact h.climbs i
  · rcases List.mem_append.mp hc with hc | hc
    · exact h.carries c hc
    · rcases Sys.run_cases hstep with ⟨hnone, -, -⟩ | ⟨is, hsome, hadv⟩
      · simp [Step.call?, hnone] at hc
      · obtain rfl : c = ⟨a.engine, is, a.seed⟩ := by simpa [Step.call?, hsome] using hc
        rw [hadv.workerId, h.workerId]

end Step

/-- Every run of the fleet climbs. -/
theorem fleet_climbs {worker : ι → UInt64} {tr : List (Step ι τ)} {s : ι → Sys τ}
    (h : (fleet ι τ worker).Run tr s) : FleetClimbs worker (calls tr) s := by
  refine Lts.Run.invariant (I := fun tr s => FleetClimbs worker (calls tr) s) ?_ ?_ h
  · intro s hinit
    refine ⟨fun i => ?_, fun i => ⟨List.Pairwise.nil, by simp [issuedBy, calls],
      by simp [issuedBy, calls]⟩, by simp [calls]⟩
    have hmk := (hinit i).1
    rw [SnowflakeEngine.mk?] at hmk
    split at hmk
    · rw [← Option.some.inj hmk]
    · cases hmk
  · rintro tr s a s' _ hI ⟨hnext, si, hstep, rfl⟩
    rw [calls_snoc]
    exact hI.step hnext hstep

/-- Of two calls on one engine the later was issued under a later pair. -/
theorem pairwise_before {cs : List (Call ι)} (h : ∀ i, (issuedBy i cs).Pairwise Before) :
    cs.Pairwise fun a b => a.engine = b.engine → Before a.issued b.issued := by
  induction cs with
  | nil => exact List.Pairwise.nil
  | cons c cs ih =>
      rw [List.pairwise_cons]
      constructor
      · intro b hb hsame
        have hhead := h c.engine
        rw [issuedBy, List.filter_cons_of_pos (by simp), List.map_cons, List.pairwise_cons] at hhead
        refine hhead.1 b.issued (List.mem_map.mpr ⟨b, ?_, rfl⟩)
        exact List.mem_filter.mpr ⟨hb, by simp [hsame]⟩
      · refine ih fun i => ?_
        have htail := h i
        rw [issuedBy] at htail ⊢
        by_cases hi : c.engine = i
        · rw [List.filter_cons_of_pos (by simpa using hi), List.map_cons,
            List.pairwise_cons] at htail
          exact htail.2
        · rwa [List.filter_cons_of_neg (by simpa using hi)] at htail

/-! ## Distinct strings -/

/-- The strings of every run are pairwise distinct, if its timestamps lie in
one window of 2^42 ms. -/
def Distinct (ι τ : Type) [DecidableEq ι] [DecidableEq τ] (worker : ι → UInt64) : Prop :=
  ∀ (tr : List (Step ι τ)) (s : ι → Sys τ), (fleet ι τ worker).Run tr s → ∀ base : Nat,
    (∀ c ∈ calls tr, c.issued.InWindow base) → ((calls tr).map Call.gen).Nodup

/-- What a string keeps of an id: all but the low four bits of the worker id. -/
theorem id_fields {i : Issued} (h : i.workerId ≤ maxWorkerId ∧ i.seq ≤ seqMask) :
    i.id.toNat / 2 ^ 16 = (i.timestamp - epoch).toNat % 2 ^ 42 * 2 ^ 6 + i.workerId.toNat / 2 ^ 4 ∧
      i.id.toNat % 2 ^ 12 = i.seq.toNat := by
  have hid := Issued.id_toNat h
  have hlt := Issued.fields_lt h
  omega

theorem shiftRight_four (w : UInt64) : (w >>> 4).toNat = w.toNat / 2 ^ 4 := by
  rw [UInt64.toNat_shiftRight, Nat.shiftRight_eq_div_pow]
  rfl

/-- Worker ids that differ above their low four bits keep the strings apart. -/
theorem gen_ne {worker : ι → UInt64} {base : Nat} {a b : Call ι}
    (hapart : ∀ i j, i ≠ j → worker i >>> 4 ≠ worker j >>> 4)
    (ha : a.issued.workerId ≤ maxWorkerId ∧ a.issued.seq ≤ seqMask)
    (hb : b.issued.workerId ≤ maxWorkerId ∧ b.issued.seq ≤ seqMask)
    (haw : a.issued.workerId = worker a.engine) (hbw : b.issued.workerId = worker b.engine)
    (hwa : a.issued.InWindow base) (hwb : b.issued.InWindow base)
    (hbefore : a.engine = b.engine → Before a.issued b.issued) : a.gen ≠ b.gen := by
  intro heq
  obtain ⟨htop, hlow⟩ := high_of_rfcUuidFormat heq
  obtain ⟨hatop, halow⟩ := id_fields ha
  obtain ⟨hbtop, hblow⟩ := id_fields hb
  have hfa := Issued.fields_lt ha
  have hfb := Issued.fields_lt hb
  have hworker : worker a.engine >>> 4 = worker b.engine >>> 4 := by
    rw [← UInt64.toNat_inj, shiftRight_four, shiftRight_four, ← haw, ← hbw]
    omega
  have hsame : a.engine = b.engine := by
    by_contra hne
    exact hapart _ _ hne hworker
  have htime := timestamp_eq_of_window hwa hwb (by omega)
  rcases hbefore hsame with hlt | ⟨-, hlt⟩
  · exact absurd htime (UInt64.ne_of_lt hlt)
  · exact absurd (UInt64.toNat_inj.mp (by omega)) (UInt64.ne_of_lt hlt)

theorem distinct_of_apart {worker : ι → UInt64}
    (hapart : ∀ i j, i ≠ j → worker i >>> 4 ≠ worker j >>> 4) : Distinct ι τ worker := by
  intro tr s hrun base hwindow
  have hI := fleet_climbs hrun
  have hbounds : ∀ c ∈ calls tr, c.issued.workerId ≤ maxWorkerId ∧ c.issued.seq ≤ seqMask := by
    intro c hc
    refine (hI.climbs c.engine).bounds c.issued (List.mem_map.mpr ⟨c, ?_, rfl⟩)
    exact List.mem_filter.mpr ⟨hc, by simp⟩
  rw [List.Nodup, List.pairwise_map]
  have hpair := List.Pairwise.and_mem.mp (pairwise_before fun i => (hI.climbs i).pairwise)
  refine hpair.imp ?_
  rintro a b ⟨ha, hb, hbefore⟩
  exact gen_ne hapart (hbounds a ha) (hbounds b hb) (hI.carries a ha) (hI.carries b hb)
    (hwindow a ha) (hwindow b hb) hbefore

/-- The first id of an engine, in the first millisecond of the epoch. -/
def firstId (w : UInt64) : Issued := { timestamp := epoch, workerId := w, seq := 0 }

/-- A fleet that has issued nothing. -/
def freshFleet {worker : ι → UInt64} (hworker : ∀ i, worker i ≤ maxWorkerId) : ι → Sys τ :=
  fun i => ⟨⟨worker i, 0, 0, hworker i, UInt64.zero_le⟩, fun _ => .idle⟩

/-- Two engines whose worker ids agree above their low four bits, in the same
millisecond and with the same seed. -/
theorem not_distinct_of_eq [Inhabited τ] {worker : ι → UInt64}
    (hworker : ∀ i, worker i ≤ maxWorkerId) {i j : ι} (hne : i ≠ j)
    (heq : worker i >>> 4 = worker j >>> 4) : ¬ Distinct ι τ worker := by
  intro hdistinct
  have h0 : (fleet ι τ worker).Run [] (freshFleet hworker) := by
    refine .start fun k => ⟨?_, fun _ => rfl⟩
    rw [SnowflakeEngine.mk?, dif_pos (hworker k)]
    rfl
  have h1 := h0.snoc (a := ⟨i, ⟨default, .lock [epoch], some (.returned (firstId (worker i)))⟩, 0⟩)
    ⟨nofun, _, rfl, rfl⟩
  have h2 := h1.snoc (a := ⟨j, ⟨default, .lock [epoch], some (.returned (firstId (worker j)))⟩, 0⟩)
    ⟨nofun, _, by rw [Function.update_of_ne hne.symm]; rfl, rfl⟩
  have hnodup := hdistinct _ _ h2 epoch.toNat (by
    intro c hc
    have hc : c = ⟨i, firstId (worker i), 0⟩ ∨ c = ⟨j, firstId (worker j), 0⟩ := by
      simpa [calls, Step.call?, Event.issued?] using hc
    rcases hc with rfl | rfl
    all_goals exact ⟨Nat.le_refl _, Nat.lt_add_of_pos_right (by decide)⟩)
  have hgen : Call.gen ⟨i, firstId (worker i), 0⟩ = Call.gen ⟨j, firstId (worker j), 0⟩ := by
    have hi := id_fields (i := firstId (worker i)) ⟨hworker i, (by decide : (0 : UInt64) ≤ seqMask)⟩
    have hj := id_fields (i := firstId (worker j)) ⟨hworker j, (by decide : (0 : UInt64) ≤ seqMask)⟩
    have hshift := congrArg UInt64.toNat heq
    rw [shiftRight_four, shiftRight_four] at hshift
    refine rfcUuidFormat_congr 0 ?_ (hi.2.trans hj.2.symm)
    rw [hi.1, hj.1]
    simp only [firstId, hshift]
  simp [calls, Step.call?, Event.issued?, hgen] at hnodup

/-- **The strings of a fleet.** Every one is a UUID of version 8; those of
every run within one window of 2^42 ms are pairwise distinct exactly if the
worker ids are pairwise distinct without their low four bits. -/
theorem fleet_distinct_iff [Inhabited τ] {worker : ι → UInt64}
    (hworker : ∀ i, worker i ≤ maxWorkerId) :
    (∀ (tr : List (Step ι τ)) (s : ι → Sys τ), (fleet ι τ worker).Run tr s →
      ∀ c ∈ calls tr, IsUuid c.gen) ∧
    (Distinct ι τ worker ↔ ∀ i j, i ≠ j → worker i >>> 4 ≠ worker j >>> 4) := by
  refine ⟨fun _ _ _ c _ => isUuid_rfcUuidFormat c.issued.id c.seed, fun hdistinct i j hne heq => ?_,
    distinct_of_apart⟩
  exact not_distinct_of_eq hworker hne heq hdistinct

/-- Two engines with the worker ids 16 and 32. -/
theorem fleet_distinct_two :
    (∀ b : Bool, (if b then 16 else 32 : UInt64) ≤ maxWorkerId) ∧
    (∀ (tr : List (Step Bool Unit)) (s : Bool → Sys Unit),
      (fleet Bool Unit fun b => if b then 16 else 32).Run tr s → ∀ c ∈ calls tr, IsUuid c.gen) ∧
    (Distinct Bool Unit (fun b => if b then 16 else 32) ↔
      ∀ i j : Bool, i ≠ j →
        (if i then 16 else 32 : UInt64) >>> 4 ≠ (if j then 16 else 32 : UInt64) >>> 4) :=
  ⟨by decide, fleet_distinct_iff (by decide)⟩

/-- The worker ids 0 and 1 are distinct, and their strings are not. -/
theorem fleet_zero_one :
    (∀ i j : Bool, i ≠ j → (if i then 1 else 0 : UInt64) ≠ if j then 1 else 0) ∧
      ¬ Distinct Bool Unit (fun b => if b then 1 else 0) :=
  ⟨by decide, not_distinct_of_eq (by decide) (i := true) (j := false) (by decide) (by decide)⟩

end HighJump.Algo.Uuid
