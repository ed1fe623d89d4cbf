/-
HighJump.Sync.StripedMapTheorems — a striped map is one finite map.

A key lives in the bucket its strip function names and nowhere else
(`Home`), so looking a key up means looking in one bucket, and a bucket
that is changed at one key changes the map at that key only. The pairs of
all buckets one after the other are the pairs of the map, no key twice;
`size`, `range` and the iterators are read off that list.
-/
import Mathlib.Data.Finmap
import HighJump.Lib.Refine
import HighJump.Sync.StripedMap

namespace HighJump.Sync.StripedMap

open HighJump.Lib

variable {K V : Type}

/-! ## The pairs of all buckets -/

/-- The pairs of the buckets, one bucket after the other. -/
def contents (s : StripedMap K V) : List (K × V) := s.buckets.flatMap UMap.entries

theorem size_eq (s : StripedMap K V) : s.size = s.contents.length := by
  have hfold : ∀ (bs : List (UMap K V)) (total : Nat),
      bs.foldl (fun total b => total + b.entries.length) total =
        total + (bs.flatMap UMap.entries).length := by
    intro bs
    induction bs with
    | nil => intro total; rfl
    | cons b bs ih =>
        intro total
        rw [List.foldl_cons, ih, List.flatMap_cons, List.length_append, Nat.add_assoc]
  rw [size, hfold, Nat.zero_add, contents]

/-- A handler that always goes on sees every pair, in order. -/
theorem range_eq {σ : Type} (f : σ → K → V → σ) (s : StripedMap K V) (st : σ) :
    range (fun st k v => (true, f st k v)) s.buckets st =
      s.contents.foldl (fun st e => f st e.1 e.2) st := by
  have hbucket : ∀ (es : List (K × V)) (st : σ),
      rangeBucket (fun st k v => (true, f st k v)) es st =
        (true, es.foldl (fun st e => f st e.1 e.2) st) := by
    intro es
    induction es with
    | nil => intro st; rfl
    | cons e es ih => intro st; exact ih _
  have hall : ∀ (bs : List (UMap K V)) (st : σ),
      range (fun st k v => (true, f st k v)) bs st =
        (bs.flatMap UMap.entries).foldl (fun st e => f st e.1 e.2) st := by
    intro bs
    induction bs with
    | nil => intro st; rfl
    | cons b bs ih =>
        intro st
        simp only [range, hbucket, if_true, List.flatMap_cons, List.foldl_append]
        exact ih _
  exact hall s.buckets st

/-! ## Iteration -/

/-- An iterator that has the pairs `rest` before it. -/
def IterAt (s : StripedMap K V) (c : ConstIterator) (rest : List (K × V)) : Prop :=
  (c = ⟨s.buckets.length, none⟩ ∧ rest = []) ∨
    ∃ b i, s.buckets[c.bucket]? = some b ∧ c.it = some i ∧ i < b.entries.length ∧
      rest = b.entries.drop i ++ (s.buckets.drop (c.bucket + 1)).flatMap UMap.entries

/-- The skipping loop, from a position in a bucket or at its end. -/
theorem loop_iterAt (s : StripedMap K V) (fuel : Nat) :
    ∀ {k i : Nat} {b : UMap K V}, s.buckets[k]? = some b → i ≤ b.entries.length →
      s.buckets.length - k < fuel →
      ∃ c, loop s.atBucketEnd (fun c => some (s.nextBucket c)) fuel ⟨k, some i⟩ = some c ∧
        IterAt s (if c.bucket ≥ s.buckets.length then { c with it := none } else c)
          (b.entries.drop i ++ (s.buckets.drop (k + 1)).flatMap UMap.entries) := by
  induction fuel with
  | zero => intro k i b _ _ hfuel; omega
  | succ fuel ih =>
      intro k i b hb hi hfuel
      obtain ⟨hk, _⟩ := List.getElem?_eq_some_iff.mp hb
      by_cases hend : i = b.entries.length
      · have hguard : s.atBucketEnd ⟨k, some i⟩ = true := by
          simp [atBucketEnd, hb, hend]
        rw [hend, List.drop_length, List.nil_append]
        by_cases hnext : k + 1 < s.buckets.length
        · -- the next bucket, from its beginning
          have hb1 : s.buckets[k + 1]? = some s.buckets[k + 1] := List.getElem?_eq_getElem hnext
          obtain ⟨c, hrun, hat⟩ := ih hb1 (Nat.zero_le _) (by omega)
          refine ⟨c, ?_, ?_⟩
          · rw [← hend, loop, if_pos hguard, Option.bind_some, nextBucket, if_pos hnext, hrun]
          · rw [List.drop_zero] at hat
            rw [List.drop_eq_getElem_cons hnext, List.flatMap_cons]
            exact hat
        · -- no bucket is left
          refine ⟨s.nextBucket ⟨k, some i⟩, ?_, ?_⟩
          · obtain ⟨fuel, rfl⟩ : ∃ n, fuel = n + 1 := ⟨fuel - 1, by omega⟩
            have hstop : s.atBucketEnd (s.nextBucket ⟨k, some i⟩) = false := by
              simp [atBucketEnd, nextBucket, List.getElem?_eq_none (Nat.le_of_not_lt hnext)]
            rw [← hend, loop, if_pos hguard, Option.bind_some, loop, hstop]
            rfl
          · have hlen : (s.nextBucket ⟨k, some i⟩).bucket = s.buckets.length := by
              simp only [nextBucket]
              omega
            rw [if_pos (by omega), List.drop_eq_nil_of_le (by omega)]
            exact .inl ⟨by rw [hlen], rfl⟩
      · have hguard : s.atBucketEnd ⟨k, some i⟩ = false := by
          simp [atBucketEnd, hb, hend]
        refine ⟨⟨k, some i⟩, ?_, ?_⟩
        · rw [loop, hguard]
          rfl
        · rw [if_neg (by simp only; omega)]
          exact .inr ⟨b, i, hb, rfl, by omega, rfl⟩

theorem advanceToValid_iterAt (s : StripedMap K V) {k i : Nat} {b : UMap K V}
    (hb : s.buckets[k]? = some b) (hi : i ≤ b.entries.length) :
    ∃ c, s.advanceToValid ⟨k, some i⟩ = some c ∧
      IterAt s c (b.entries.drop i ++ (s.buckets.drop (k + 1)).flatMap UMap.entries) := by
  have hne : s.buckets ≠ [] := by
    intro hnil
    rw [hnil] at hb
    cases hb
  obtain ⟨c, hrun, hat⟩ := s.loop_iterAt (s.buckets.length + 1) hb hi (by omega)
  refine ⟨_, ?_, hat⟩
  rw [advanceToValid, if_neg hne, hrun]
  rfl

theorem iterEnd_eq (s : StripedMap K V) : s.iterEnd = some ⟨s.buckets.length, none⟩ := by
  rw [iterEnd, advanceToValid]
  split
  · rfl
  · have hstop : s.atBucketEnd ⟨s.buckets.length, none⟩ = false := by
      simp [atBucketEnd]
    simp [loop, hstop]

/-- `begin()` has all pairs before it. -/
theorem iterBegin_iterAt (s : StripedMap K V) :
    ∃ c, s.iterBegin = some c ∧ IterAt s c s.contents := by
  rw [iterBegin]
  split
  · next hnil => exact ⟨_, s.iterEnd_eq, .inl ⟨rfl, by rw [contents, hnil]; rfl⟩⟩
  · next hne =>
      obtain ⟨b, bs, hbs⟩ := List.exists_cons_of_ne_nil hne
      obtain ⟨c, hrun, hat⟩ := s.advanceToValid_iterAt (k := 0) (i := 0) (b := b)
        (by rw [hbs]; rfl) (Nat.zero_le _)
      refine ⟨c, hrun, ?_⟩
      rw [List.drop_zero, hbs, Nat.zero_add, List.drop_succ_cons, List.drop_zero,
        ← List.flatMap_cons, ← hbs] at hat
      exact hat

/-- One turn takes one pair. -/
theorem iterTurn_iterAt (s : StripedMap K V) {c : ConstIterator} {e : K × V} {rest : List (K × V)}
    (hat : IterAt s c (e :: rest)) (fuel : Nat) (acc : List (K × V)) :
    ∃ c', s.iterTurn fuel (c, acc) = some (.again (c', acc ++ [e])) ∧ IterAt s c' rest := by
  rcases hat with ⟨_, hnil⟩ | ⟨b, i, hb, hit, hi, hrest⟩
  · cases hnil
  obtain ⟨hk, _⟩ := List.getElem?_eq_some_iff.mp hb
  rw [List.drop_eq_getElem_cons hi, List.cons_append] at hrest
  obtain ⟨he, htail⟩ := List.cons.inj hrest
  obtain ⟨c', hnext, hat'⟩ := s.advanceToValid_iterAt hb (show i + 1 ≤ b.entries.length by omega)
  have hne : c ≠ ⟨s.buckets.length, none⟩ := by
    rintro rfl
    cases hit
  have hderef : s.deref c = some e := by
    rw [deref, hb, hit, he]
    exact List.getElem?_eq_getElem hi
  have hinc : s.increment c = some c' := by
    rw [increment, hit]
    exact hnext
  refine ⟨c', ?_, htail ▸ hat'⟩
  simp [iterTurn, iterEnd_eq, hne, hderef, hinc]

/-- The walk meets what is before the iterator, in order. -/
theorem iterate_iterAt (s : StripedMap K V) (rest : List (K × V)) :
    ∀ {c : ConstIterator} {fuel : Nat} (acc : List (K × V)), IterAt s c rest →
      rest.length < fuel → repeatUntil s.iterTurn fuel (c, acc) = some (acc ++ rest) := by
  induction rest with
  | nil =>
      intro c fuel acc hat hfuel
      obtain ⟨fuel, rfl⟩ : ∃ n, fuel = n + 1 := ⟨fuel - 1, by omega⟩
      have hc : c = ⟨s.buckets.length, none⟩ := by
        rcases hat with ⟨hc, _⟩ | ⟨b, i, _, _, hi, hrest⟩
        · exact hc
        · rw [List.drop_eq_getElem_cons hi] at hrest
          cases hrest
      rw [List.append_nil]
      apply repeatUntil_exit
      simp [iterTurn, iterEnd_eq, hc]
  | cons e rest ih =>
      intro c fuel acc hat hfuel
      obtain ⟨fuel, rfl⟩ : ∃ n, fuel = n + 1 := ⟨fuel - 1, by omega⟩
      obtain ⟨c', hturn, hat'⟩ := s.iterTurn_iterAt hat fuel acc
      rw [List.length_cons] at hfuel
      rw [repeatUntil_again hturn, ih (acc ++ [e]) hat' (by omega), List.append_assoc]
      rfl

/-- **Iteration meets the pairs of all buckets**, whatever buckets are
empty, and then `end()`. -/
theorem iterate_eq (s : StripedMap K V) : s.iterate = some s.contents := by
  obtain ⟨c, hbegin, hat⟩ := s.iterBegin_iterAt
  have hwalk := s.iterate_iterAt s.contents [] hat (show s.contents.length < s.size + 1 by
    rw [size_eq]
    omega)
  rw [iterate, hbegin]
  exact hwalk

/-! ## The home bucket -/

/-- The strip function's answer is the number of a bucket. -/
def InRange (s : StripedMap K V) (k : K) : Prop :=
  0 ≤ s.stripFn k ∧ s.stripFn k < s.buckets.length

theorem bucketOf_ok {s : StripedMap K V} {k : K} (h : s.InRange k) :
    ∃ b, s.buckets[(s.stripFn k).toNat]? = some b ∧
      s.bucketOf k = .ok ((s.stripFn k).toNat, b) := by
  obtain ⟨h0, hlt⟩ := h
  have hget : s.buckets[(s.stripFn k).toNat]? = some s.buckets[(s.stripFn k).toNat] :=
    List.getElem?_eq_getElem (by omega)
  refine ⟨_, hget, ?_⟩
  simp only [bucketOf, hget]
  rw [if_neg (by omega)]

theorem bucketOf_error {s : StripedMap K V} {k : K} (h : ¬ s.InRange k) :
    s.bucketOf k = .error .outOfRange := by
  simp only [bucketOf]
  split
  · rfl
  · next h0 =>
      have hnone : s.buckets[(s.stripFn k).toNat]? = none := by
        rw [List.getElem?_eq_none_iff]
        by_contra hlt
        exact h ⟨by omega, by omega⟩
      rw [hnone]

variable [DecidableEq K]

/-- A key only ever lives in its own bucket. -/
def Home (s : StripedMap K V) : Prop :=
  ∀ (i : Nat) (b : UMap K V), s.buckets[i]? = some b →
    ∀ k v, b.find k = some v → s.stripFn k = i

/-- The value at a key, found in its bucket. -/
def lookup (s : StripedMap K V) (k : K) : Option V :=
  if s.stripFn k < 0 then none else (s.buckets[(s.stripFn k).toNat]?).bind fun b => b.find k

theorem lookup_eq {s : StripedMap K V} {k : K} {b : UMap K V} (h : s.InRange k)
    (hb : s.buckets[(s.stripFn k).toNat]? = some b) : s.lookup k = b.find k := by
  rw [lookup, if_neg (by have := h.1; omega), hb, Option.bind_some]

/-- A bucket changed at one of its own keys changes the map there. -/
theorem lookup_setBucket {s : StripedMap K V} {k : K} {b b' : UMap K V} {x : Option V}
    (h : s.InRange k) (hb : s.buckets[(s.stripFn k).toNat]? = some b)
    (hfind : ∀ k', b'.find k' = if k' = k then x else b.find k') (k' : K) :
    (s.setBucket (s.stripFn k).toNat b').lookup k' = if k' = k then x else s.lookup k' := by
  obtain ⟨h0, hlt⟩ := h
  have hlen : (s.stripFn k).toNat < s.buckets.length := by omega
  simp only [lookup, setBucket, List.getElem?_set]
  by_cases hneg : s.stripFn k' < 0
  · have hk : k' ≠ k := by
      rintro rfl
      omega
    rw [if_pos hneg, if_neg hk, if_pos hneg]
  · rw [if_neg hneg, if_neg hneg]
    by_cases hsame : (s.stripFn k).toNat = (s.stripFn k').toNat
    · rw [if_pos hsame, if_pos hlen, Option.bind_some, hfind, ← hsame, hb, Option.bind_some]
    · have hk : k' ≠ k := by
        rintro rfl
        exact hsame rfl
      rw [if_neg hsame, if_neg hk]

/-- It stays home to its keys. -/
theorem home_setBucket {s : StripedMap K V} {k : K} {b b' : UMap K V} {x : Option V}
    (hhome : s.Home) (h : s.InRange k) (hb : s.buckets[(s.stripFn k).toNat]? = some b)
    (hfind : ∀ k', b'.find k' = if k' = k then x else b.find k') :
    (s.setBucket (s.stripFn k).toNat b').Home := by
  intro i c hc k' v hv
  have h0 := h.1
  change s.stripFn k' = i
  simp only [setBucket, List.getElem?_set] at hc
  by_cases hi : (s.stripFn k).toNat = i
  · rw [if_pos hi] at hc
    split at hc
    · obtain rfl : b' = c := Option.some.inj hc
      rw [hfind] at hv
      split at hv
      · next hk => rw [hk]; omega
      · exact hhome i b (hi ▸ hb) k' v hv
    · cases hc
  · rw [if_neg hi] at hc
    exact hhome i c hc k' v hv

/-! ## The pairs are the map's -/

theorem mem_contents_iff {s : StripedMap K V} (hhome : s.Home) (k : K) (v : V) :
    (k, v) ∈ s.contents ↔ s.lookup k = some v := by
  rw [contents, List.mem_flatMap, lookup]
  constructor
  · rintro ⟨b, hb, hmem⟩
    obtain ⟨i, hi⟩ := List.mem_iff_getElem?.mp hb
    have hfind := (b.find_eq_some_iff k v).mpr hmem
    have hstrip := hhome i b hi k v hfind
    rw [if_neg (by omega), hstrip, Int.toNat_natCast, hi, Option.bind_some, hfind]
  · intro h
    split at h
    · cases h
    · obtain ⟨b, hb, hfind⟩ := Option.bind_eq_some_iff.mp h
      exact ⟨b, List.mem_of_getElem? hb, (b.find_eq_some_iff k v).mp hfind⟩

theorem nodup_keys_contents {s : StripedMap K V} (hhome : s.Home) :
    (s.contents.map Prod.fst).Nodup := by
  rw [contents, List.map_flatMap, List.nodup_flatMap]
  refine ⟨fun b _ => b.nodupKeys, ?_⟩
  rw [List.pairwise_iff_getElem]
  intro i j hi hj hij k hki hkj
  obtain ⟨e, he, rfl⟩ := List.mem_map.mp hki
  obtain ⟨e', he', hk⟩ := List.mem_map.mp hkj
  have h1 := hhome i _ (List.getElem?_eq_getElem hi) e.1 e.2 ((UMap.find_eq_some_iff _ _ _).mpr he)
  have h2 := hhome j _ (List.getElem?_eq_getElem hj) e'.1 e'.2
    ((UMap.find_eq_some_iff _ _ _).mpr he')
  rw [hk] at h2
  omega

/-! ## One finite map -/

/-- The calls on a single finite map. -/
def onFinmap (m : Finmap fun _ : K => V) : Op K V → (Finmap fun _ : K => V) × Out V
  | .emplace k v => (if k ∈ m then m else m.insert k v, .done)
  | .replace k v => (m.insert k v, .done)
  | .find k v => (m, .found (decide (k ∈ m)) ((m.lookup k).getD v))
  | .erase k => (m.erase k, .erased (decide (k ∈ m)))
  | .clear => (∅, .done)

/-- The same, where a key without a bucket is refused and nothing changes. -/
def spec (hasBucket : K → Bool) (m : Finmap fun _ : K => V) (op : Op K V) :
    (Finmap fun _ : K => V) × Out V :=
  match op.key with
  | none => onFinmap m op
  | some k => if hasBucket k then onFinmap m op else (m, .threw .outOfRange)

/-- The map is the finite map `m`. -/
structure Refines (fn : K → Int) (capa : Nat) (s : StripedMap K V) (m : Finmap fun _ : K => V) :
    Prop where
  stripFn : s.stripFn = fn
  capa : s.buckets.length = capa
  home : s.Home
  lookup : ∀ k, m.lookup k = s.lookup k

section Calls

variable {fn : K → Int} {capa : Nat} {s : StripedMap K V} {m m' : Finmap fun _ : K => V}

theorem Refines.inRange_iff (h : Refines fn capa s m) (k : K) :
    s.InRange k ↔ decide (0 ≤ fn k ∧ fn k < capa) = true := by
  rw [InRange, h.stripFn, h.capa, decide_eq_true_eq]

theorem Refines.mem_iff (h : Refines fn capa s m) (k : K) : k ∈ m ↔ s.lookup k ≠ none := by
  rw [← h.lookup, ne_eq, Finmap.lookup_eq_none, not_not]

/-- A bucket changed at one key follows a finite map changed at that key. -/
theorem Refines.setBucket (h : Refines fn capa s m) {k : K} {b b' : UMap K V} {x : Option V}
    (hk : s.InRange k) (hb : s.buckets[(s.stripFn k).toNat]? = some b)
    (hfind : ∀ k', b'.find k' = if k' = k then x else b.find k')
    (hm : ∀ k', m'.lookup k' = if k' = k then x else m.lookup k') :
    Refines fn capa (s.setBucket (s.stripFn k).toNat b') m' where
  stripFn := h.stripFn
  capa := by rw [StripedMap.setBucket, List.length_set, h.capa]
  home := home_setBucket h.home hk hb hfind
  lookup := by
    intro k'
    rw [hm, lookup_setBucket hk hb hfind, h.lookup]

theorem Refines.emplace (lay : Layout K V) (h : Refines fn capa s m) {k : K} (hk : s.InRange k)
    (v : V) :
    (call lay s (.emplace k v)).2 = .done ∧
      Refines fn capa (call lay s (.emplace k v)).1 (if k ∈ m then m else m.insert k v) := by
  obtain ⟨b, hb, hof⟩ := bucketOf_ok hk
  have hcall : s.emplace lay k v = .ok (s.setBucket (s.stripFn k).toNat (b.emplace lay k v)) := by
    rw [StripedMap.emplace, hof]
    rfl
  unfold call
  simp only [hcall, true_and]
  refine h.setBucket hk hb (b.find_emplace lay k v) ?_
  intro k'
  rw [← lookup_eq hk hb, ← h.lookup]
  by_cases hmem : k ∈ m
  · obtain ⟨w, hw⟩ := Finmap.mem_iff.mp hmem
    rw [if_pos hmem, hw, Option.getD_some]
    by_cases heq : k' = k
    · rw [if_pos heq, heq, hw]
    · rw [if_neg heq]
  · rw [if_neg hmem, Finmap.lookup_eq_none.mpr hmem, Option.getD_none]
    by_cases heq : k' = k
    · rw [if_pos heq, heq, Finmap.lookup_insert]
    · rw [if_neg heq, Finmap.lookup_insert_of_ne _ heq]

theorem Refines.replace (lay : Layout K V) (h : Refines fn capa s m) {k : K} (hk : s.InRange k)
    (v : V) :
    (call lay s (.replace k v)).2 = .done ∧
      Refines fn capa (call lay s (.replace k v)).1 (m.insert k v) := by
  obtain ⟨b, hb, hof⟩ := bucketOf_ok hk
  have hcall : s.replace lay k v = .ok (s.setBucket (s.stripFn k).toNat (b.assign lay k v)) := by
    rw [StripedMap.replace, hof]
    rfl
  unfold call
  simp only [hcall, true_and]
  refine h.setBucket hk hb (b.find_assign lay k v) ?_
  intro k'
  by_cases heq : k' = k
  · rw [if_pos heq, heq, Finmap.lookup_insert]
  · rw [if_neg heq, Finmap.lookup_insert_of_ne _ heq]

theorem Refines.find (lay : Layout K V) (h : Refines fn capa s m) {k : K} (hk : s.InRange k)
    (v : V) :
    call lay s (.find k v) = (s, .found (decide (k ∈ m)) ((m.lookup k).getD v)) := by
  obtain ⟨b, hb, hof⟩ := bucketOf_ok hk
  have hlookup : m.lookup k = b.find k := by rw [h.lookup, lookup_eq hk hb]
  cases hfind : b.find k with
  | none =>
      have hcall : s.find k v = .ok (false, v) := by
        simp [StripedMap.find, hof, hfind, bind, Except.bind, pure, Except.pure]
      have hmem : k ∉ m := by rw [← Finmap.lookup_eq_none, hlookup, hfind]
      unfold call
      simp only [hcall, hlookup, hfind, hmem, decide_false, Option.getD_none]
  | some w =>
      have hcall : s.find k v = .ok (true, w) := by
        simp [StripedMap.find, hof, hfind, bind, Except.bind, pure, Except.pure]
      have hmem : k ∈ m := Finmap.mem_iff.mpr ⟨w, by rw [hlookup, hfind]⟩
      unfold call
      simp only [hcall, hlookup, hfind, hmem, decide_true, Option.getD_some]

theorem Refines.erase (lay : Layout K V) (h : Refines fn capa s m) {k : K} (hk : s.InRange k) :
    (call lay s (.erase k)).2 = .erased (decide (k ∈ m)) ∧
      Refines fn capa (call lay s (.erase k)).1 (m.erase k) := by
  obtain ⟨b, hb, hof⟩ := bucketOf_ok hk
  have hcall : s.erase k = .ok (decide ((b.erase k).2 > 0),
      s.setBucket (s.stripFn k).toNat (b.erase k).1) := by
    rw [StripedMap.erase, hof]
    rfl
  have hanswer : decide ((b.erase k).2 > 0) = decide (k ∈ m) := by
    have hmem := h.mem_iff k
    rw [lookup_eq hk hb] at hmem
    rw [decide_eq_decide, hmem, UMap.erase]
    by_cases hfind : b.find k = none <;> simp [hfind]
  unfold call
  simp only [hcall, hanswer, true_and]
  refine h.setBucket hk hb (b.find_erase k) ?_
  intro k'
  by_cases heq : k' = k
  · rw [if_pos heq, heq, Finmap.lookup_erase]
  · rw [if_neg heq, Finmap.lookup_erase_ne heq]

theorem Refines.clear (h : Refines fn capa s m) : Refines fn capa s.clear ∅ where
  stripFn := h.stripFn
  capa := by rw [StripedMap.clear, List.length_map, h.capa]
  home := by
    intro i b hb k v hv
    rw [StripedMap.clear, List.getElem?_map] at hb
    obtain ⟨_, _, rfl⟩ := Option.map_eq_some_iff.mp hb
    cases hv
  lookup := by
    intro k
    rw [Finmap.lookup_empty, StripedMap.lookup]
    split
    · rfl
    · simp only [StripedMap.clear, List.getElem?_map]
      cases s.buckets[(s.stripFn k).toNat]? <;> rfl

/-- **A refused key**: the call throws and the map is as it was. -/
theorem call_outOfRange (lay : Layout K V) {op : Op K V} {k : K} (hkey : op.key = some k)
    (hk : ¬ s.InRange k) : call lay s op = (s, .threw .outOfRange) := by
  have hof := bucketOf_error hk
  cases op with
  | emplace key value =>
      obtain rfl := Option.some.inj hkey
      simp only [call, StripedMap.emplace, hof]
      rfl
  | replace key value =>
      obtain rfl := Option.some.inj hkey
      simp only [call, StripedMap.replace, hof]
      rfl
  | find key value =>
      obtain rfl := Option.some.inj hkey
      simp only [call, StripedMap.find, hof]
      rfl
  | erase key =>
      obtain rfl := Option.some.inj hkey
      simp only [call, StripedMap.erase, hof]
      rfl
  | clear => cases hkey

/-- **One call** on the striped map is the call on the finite map. -/
theorem Refines.call (lay : Layout K V) (h : Refines fn capa s m) (op : Op K V) :
    (StripedMap.call lay s op).2 =
        (spec (fun k => decide (0 ≤ fn k ∧ fn k < capa)) m op).2 ∧
      Refines fn capa (StripedMap.call lay s op).1
        (spec (fun k => decide (0 ≤ fn k ∧ fn k < capa)) m op).1 := by
  cases hkey : op.key with
  | none =>
      have hspec : spec (fun k => decide (0 ≤ fn k ∧ fn k < capa)) m op = onFinmap m op := by
        simp only [spec, hkey]
      rw [hspec]
      cases op with
      | clear => exact ⟨rfl, h.clear⟩
      | _ => cases hkey
  | some k =>
      by_cases hk : s.InRange k
      · have hspec : spec (fun k => decide (0 ≤ fn k ∧ fn k < capa)) m op = onFinmap m op := by
          simp only [spec, hkey, (h.inRange_iff k).mp hk, if_true]
        rw [hspec]
        cases op with
        | emplace key value =>
            obtain rfl := Option.some.inj hkey
            exact h.emplace lay hk value
        | replace key value =>
            obtain rfl := Option.some.inj hkey
            exact h.replace lay hk value
        | find key value =>
            obtain rfl := Option.some.inj hkey
            rw [h.find lay hk value]
            exact ⟨rfl, h⟩
        | erase key =>
            obtain rfl := Option.some.inj hkey
            exact h.erase lay hk
        | clear => cases hkey
      · have hspec : spec (fun k => decide (0 ≤ fn k ∧ fn k < capa)) m op =
            (m, .threw .outOfRange) := by
          simp only [spec, hkey]
          exact if_neg (mt (h.inRange_iff k).mpr hk)
        rw [hspec, call_outOfRange lay hkey hk]
        exact ⟨rfl, h⟩

end Calls

theorem refines_new (fn : K → Int) (capa : Nat) :
    Refines fn capa (new fn capa) (∅ : Finmap fun _ : K => V) where
  stripFn := rfl
  capa := List.length_replicate
  home := by
    intro i b hb k v hv
    rw [new, List.getElem?_replicate] at hb
    split at hb
    · obtain rfl := Option.some.inj hb
      cases hv
    · cases hb
  lookup := by
    intro k
    rw [Finmap.lookup_empty, StripedMap.lookup]
    split
    · rfl
    · simp only [new, List.getElem?_replicate]
      split <;> rfl

omit [DecidableEq K] in
/-- The strip function of the plain constructor names a bucket for every
key. -/
theorem ofHash_inRange (hash : K → Nat) {capa : Nat} (hpos : 1 ≤ capa) (hmax : capa ≤ 2 ^ 31)
    (k : K) : (ofHash hash capa : StripedMap K V).InRange k := by
  have hlt : hash k % capa < capa := Nat.mod_lt _ hpos
  have hcast : Int.bmod (hash k % capa : Nat) (2 ^ 32) = (hash k % capa : Nat) :=
    Int.bmod_eq_of_le (by omega) (by omega)
  have hstrip : (ofHash hash capa : StripedMap K V).stripFn k
      = Int.bmod (hash k % capa : Nat) (2 ^ 32) := by
    simp only [ofHash, new]
  have hlen : (ofHash hash capa : StripedMap K V).buckets.length = capa := List.length_replicate
  rw [InRange, hstrip, hcast, hlen]
  exact ⟨by omega, by omega⟩

/-- A list that holds every pair of `m` exactly once and nothing else. -/
def Visits (m : Finmap fun _ : K => V) (visited : List (K × V)) : Prop :=
  visited.Nodup ∧ ∀ k v, (k, v) ∈ visited ↔ m.lookup k = some v

section Observations

variable {fn : K → Int} {capa : Nat} {s : StripedMap K V} {m : Finmap fun _ : K => V}

theorem Refines.visits (h : Refines fn capa s m) : Visits m s.contents := by
  refine ⟨List.Nodup.of_map _ (nodup_keys_contents h.home), ?_⟩
  intro k v
  rw [mem_contents_iff h.home, h.lookup]

theorem Refines.size (h : Refines fn capa s m) : s.size = m.keys.card := by
  have hkeys : m.keys = (s.contents.map Prod.fst).toFinset := by
    ext k
    rw [Finmap.mem_keys, List.mem_toFinset, Finmap.mem_iff]
    constructor
    · rintro ⟨v, hv⟩
      exact List.mem_map.mpr ⟨(k, v), (h.visits.2 k v).mpr hv, rfl⟩
    · intro hk
      obtain ⟨e, he, rfl⟩ := List.mem_map.mp hk
      exact ⟨e.2, (h.visits.2 e.1 e.2).mp he⟩
  rw [hkeys, List.toFinset_card_of_nodup (nodup_keys_contents h.home), List.length_map, size_eq]

omit [DecidableEq K] in
/-- `range` with a handler that notes what it is given and always goes on. -/
theorem range_visited (s : StripedMap K V) :
    range (fun visited k v => (true, visited ++ [(k, v)])) s.buckets [] = s.contents := by
  have hfold : ∀ (es visited : List (K × V)),
      es.foldl (fun visited e => visited ++ [(e.1, e.2)]) visited = visited ++ es := by
    intro es
    induction es with
    | nil => intro visited; rw [List.append_nil]; rfl
    | cons e es ih => intro visited; rw [List.foldl_cons, ih, List.append_assoc]; rfl
  have hrange := range_eq (fun (visited : List (K × V)) k v => visited ++ [(k, v)]) s []
  rw [hrange, hfold, List.nil_append]

end Observations

/-- **A striped map is one finite map.** In every run the answers are those
of a single finite map, where a key without a bucket is refused; afterwards
`size` counts the keys, `range` and iteration meet every pair once, and a
call on a key without a bucket throws and changes nothing. Each call comes
with the rearrangement that it makes of its bucket. -/
theorem refines_finmap (fn : K → Int) (capa : Nat) (ops : List (Layout K V × Op K V)) :
    let s := specAll (fun s op => call op.1 s op.2) (new fn capa) ops
    let m := specAll (fun m op => spec (fun k => decide (0 ≤ fn k ∧ fn k < capa)) m op.2) ∅ ops
    s.2 = m.2 ∧ s.1.size = m.1.keys.card ∧
      Visits m.1 (range (fun visited k v => (true, visited ++ [(k, v)])) s.1.buckets []) ∧
      (∃ visited, s.1.iterate = some visited ∧ Visits m.1 visited) ∧
      ∀ lay op k, op.key = some k → ¬ (0 ≤ fn k ∧ fn k < capa) →
        call lay s.1 op = (s.1, .threw .outOfRange) := by
  intro s m
  obtain ⟨houts, h⟩ := specAll_refines (fun _ _ op h => h.call op.1 op.2) ops
    (refines_new (V := V) fn capa)
  refine ⟨houts, h.size, ?_, ⟨_, s.1.iterate_eq, h.visits⟩, ?_⟩
  · rw [range_visited]
    exact h.visits
  · intro lay op k hkey hk
    refine call_outOfRange lay hkey ?_
    rw [h.inRange_iff, decide_eq_true_eq]
    exact hk

end HighJump.Sync.StripedMap
