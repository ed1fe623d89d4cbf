/-
HighJump.Sync.StripedMapThreadsTheorems — what `range`, `size` and `clear`
are worth while other threads write.

A call on a key changes one bucket at that key (`call_cases`), so every map
there ever is keeps its keys at home, and a walk over the buckets is a
traversal of a divided collection (`divided`). The rest is the library's:
what was collected is sound, complete and without doubles with respect to
the maps there were during the walk.
-/
import HighJump.Lib.Traversal
import HighJump.Sync.StripedMapTheorems
import HighJump.Sync.StripedMapThreads

namespace HighJump.Sync.StripedMap

open HighJump.Lib

variable {K V : Type}

/-- The buckets, as parts of a collection. -/
def divided (fn : K → Int) : Divided (StripedMap K V) K V where
  home k := (fn k).toNat
  part m i := ((m.buckets[i]?).map UMap.entries).getD []

variable [DecidableEq K]

/-- A map made with `fn` and `capa`, with every key at home. -/
structure Sound (fn : K → Int) (capa : Nat) (m : StripedMap K V) : Prop where
  stripFn : m.stripFn = fn
  capa : m.buckets.length = capa
  home : m.Home

section Maps

variable {fn : K → Int} {capa : Nat} {m : StripedMap K V}

theorem sound_new (fn : K → Int) (capa : Nat) : Sound fn capa (new fn capa : StripedMap K V) :=
  let h := refines_new (V := V) fn capa
  ⟨h.stripFn, h.capa, h.home⟩

theorem Sound.placed (h : Sound fn capa m) : (divided fn).Placed m := by
  intro i
  simp only [divided]
  cases hb : m.buckets[i]? with
  | none => simp
  | some b =>
    refine ⟨b.nodupKeys, fun e he => ?_⟩
    have hhome := h.home i b hb e.1 e.2 ((b.find_eq_some_iff e.1 e.2).mpr he)
    rw [h.stripFn] at hhome
    simp [hhome]

/-- Looking a key up is looking into its part. -/
theorem Sound.lookup_iff (h : Sound fn capa m) (k : K) (v : V) :
    m.lookup k = some v ↔ 0 ≤ fn k ∧ (k, v) ∈ (divided fn).part m ((divided (V := V) fn).home k) := by
  simp only [lookup, divided, h.stripFn]
  by_cases hneg : fn k < 0
  · simp [hneg]
  · have hpos : 0 ≤ fn k := Int.not_lt.mp hneg
    cases hb : m.buckets[(fn k).toNat]? with
    | none => simp [hneg]
    | some b => simp [hneg, hpos, b.find_eq_some_iff]

theorem Sound.inRange (h : Sound fn capa m) {k : K} (hk : m.lookup k ≠ none) :
    0 ≤ fn k ∧ (fn k).toNat < capa := by
  obtain ⟨v, hv⟩ := Option.ne_none_iff_exists'.mp hk
  obtain ⟨hpos, hmem⟩ := (h.lookup_iff k v).mp hv
  refine ⟨hpos, ?_⟩
  by_contra hge
  have hnone : m.buckets[(fn k).toNat]? = none := by
    rw [List.getElem?_eq_none_iff, h.capa]
    exact Nat.le_of_not_lt hge
  simp [divided, hnone] at hmem

/-- What a call on a key does: nothing, or its bucket is another at that
key. -/
theorem call_cases (lay : Layout K V) (m : StripedMap K V) (op : KeyOp K V) :
    (m.call lay op.toOp).1 = m ∨
      ∃ b b' x, m.InRange op.key ∧ m.buckets[(m.stripFn op.key).toNat]? = some b ∧
        (∀ k, b'.find k = if k = op.key then x else b.find k) ∧ (op.puts = false → x = none) ∧
        (m.call lay op.toOp).1 = m.setBucket (m.stripFn op.key).toNat b' := by
  by_cases hrange : m.InRange op.key
  · obtain ⟨b, hb, hok⟩ := bucketOf_ok hrange
    cases op with
    | emplace key value =>
      simp only [KeyOp.key] at hok hb hrange
      refine .inr ⟨b, b.emplace lay key value, _, hrange, hb, b.find_emplace lay key value, by
        simp [KeyOp.puts], ?_⟩
      simp [KeyOp.toOp, call, emplace, hok, KeyOp.key]
    | replace key value =>
      simp only [KeyOp.key] at hok hb hrange
      refine .inr ⟨b, b.assign lay key value, _, hrange, hb, b.find_assign lay key value, by
        simp [KeyOp.puts], ?_⟩
      simp [KeyOp.toOp, call, replace, hok, KeyOp.key]
    | find key value =>
      refine .inl ?_
      simp only [KeyOp.toOp, call]
      split <;> rfl
    | erase key =>
      simp only [KeyOp.key] at hok hb hrange
      refine .inr ⟨b, (b.erase key).1, _, hrange, hb, b.find_erase key, fun _ => rfl, ?_⟩
      simp [KeyOp.toOp, call, erase, hok, KeyOp.key]
  · have herr := bucketOf_error hrange
    refine .inl ?_
    cases op with
    | emplace key value =>
      simp only [KeyOp.key] at herr
      simp [KeyOp.toOp, call, emplace, herr]
    | replace key value =>
      simp only [KeyOp.key] at herr
      simp [KeyOp.toOp, call, replace, herr]
    | find key value =>
      simp only [KeyOp.toOp, call]
      split <;> rfl
    | erase key =>
      simp only [KeyOp.key] at herr
      simp [KeyOp.toOp, call, erase, herr]

theorem Sound.call (lay : Layout K V) (h : Sound fn capa m) (op : KeyOp K V) :
    Sound fn capa (m.call lay op.toOp).1 := by
  rcases call_cases lay m op with heq | ⟨b, b', x, hrange, hb, hfind, -, heq⟩
  · rwa [heq]
  · rw [heq]
    exact ⟨h.stripFn, by simp [setBucket, h.capa], home_setBucket h.home hrange hb hfind⟩

/-- A call makes no other key, and no key at all if it puts none. -/
theorem lookup_call (lay : Layout K V) (op : KeyOp K V) {k : K} (hk : op.puts = true → k ≠ op.key)
    (hnone : m.lookup k = none) : (m.call lay op.toOp).1.lookup k = none := by
  rcases call_cases lay m op with heq | ⟨b, b', x, hrange, hb, hfind, hx, heq⟩
  · rwa [heq]
  · rw [heq, lookup_setBucket hrange hb hfind k]
    split
    next hkey =>
      refine hx ?_
      cases hputs : op.puts with
      | false => rfl
      | true => exact absurd hkey (hk hputs)
    next => exact hnone

theorem lookup_clearBucket (h : Sound fn capa m) (i : Nat) (k : K) :
    (m.setBucket i .empty).lookup k = if (fn k).toNat = i then none else m.lookup k := by
  simp only [lookup, setBucket, h.stripFn, List.getElem?_set]
  by_cases hi : (fn k).toNat = i
  · subst hi
    by_cases hlen : (fn k).toNat < m.buckets.length
    · simp [hlen, UMap.find, UMap.empty]
    · simp [hlen]
  · simp [hi, Ne.symm hi]

theorem Sound.clearBucket (h : Sound fn capa m) (i : Nat) :
    Sound fn capa (m.setBucket i .empty) := by
  refine ⟨h.stripFn, by simp [setBucket, h.capa], ?_⟩
  intro j b hb k v hv
  simp only [setBucket, List.getElem?_set] at hb
  by_cases hij : i = j
  · rw [if_pos hij] at hb
    split at hb
    · cases hb
      simp [UMap.find, UMap.empty] at hv
    · cases hb
  · rw [if_neg hij] at hb
    exact h.home j b hb k v hv

end Maps

/-! ## Walks -/

omit [DecidableEq K] in
/-- The handler is given the entries from the first on; where it does not
stop, all of them. -/
theorem rangeBucket_visited (again : List (K × V) → Bool) (es visited : List (K × V)) :
    let res := rangeBucket (fun visited k v => (again (visited ++ [(k, v)]), visited ++ [(k, v)]))
      es visited
    ∃ met, met <+: es ∧ res.2 = visited ++ met ∧ (res.1 = true → met = es) := by
  induction es generalizing visited with
  | nil => exact ⟨[], List.prefix_rfl, by simp [rangeBucket], fun _ => rfl⟩
  | cons e es ih =>
    obtain ⟨k, v⟩ := e
    simp only [rangeBucket]
    split
    next =>
      obtain ⟨met, hmet, hres, hall⟩ := ih (visited ++ [(k, v)])
      refine ⟨(k, v) :: met, List.cons_prefix_cons.mpr ⟨rfl, hmet⟩, ?_, fun h => ?_⟩
      · simpa using hres
      · rw [hall h]
    next => exact ⟨[(k, v)], ⟨es, rfl⟩, rfl, fun h => by cases h⟩

/-- What a walk has so far, read off the maps there were. -/
def WalkOk (fn : K → Int) (capa : Nat) (seen : List (StripedMap K V)) : Walk K V → Prop
  | .ranging _ bucket visited =>
    bucket ≤ capa ∧ (divided fn).Collected (· ∈ seen) bucket visited
  | .ranged visited stopped =>
    seen ≠ [] ∧ ∃ n es, n ≤ capa ∧ (divided fn).Collected (· ∈ seen) n es ∧ visited <+: es ∧
      (stopped = false → n = capa ∧ visited = es)
  | .sizing bucket total =>
    bucket ≤ capa ∧ ∃ es, (divided fn).Collected (· ∈ seen) bucket es ∧ es.length = total
  | .sized total =>
    seen ≠ [] ∧ ∃ es, (divided fn).Collected (· ∈ seen) capa es ∧ es.length = total
  | _ => True

/-- How far a `clear` is. -/
def Walk.clearedTo (capa : Nat) : Walk K V → Nat
  | .clearing bucket => bucket
  | .cleared => capa
  | _ => 0

structure Shared.Inv (fn : K → Int) (capa : Nat) (s : Shared K V) : Prop where
  map : Sound fn capa s.map
  seen : ∀ i, ∀ m ∈ s.seen i, Sound fn capa m
  now : ∀ i, (s.walks i).active = true → s.map ∈ s.seen i
  walks : ∀ i, WalkOk fn capa (s.seen i) (s.walks i)
  clears : ∀ i bucket, s.walks i = .clearing bucket → bucket ≤ capa
  gone : ∀ i k, (fn k).toNat < (s.walks i).clearedTo capa → k ∉ s.put i → s.map.lookup k = none

section Invariant

variable {fn : K → Int} {capa : Nat} {s s' : Shared K V} {a : Event K V}

theorem Shared.inv_new (fn : K → Int) (capa : Nat) : Shared.Inv fn capa (.new fn capa : Shared K V) where
  map := sound_new fn capa
  seen := by simp [Shared.new]
  now := by simp [Shared.new, Walk.active]
  walks := by simp [Shared.new, WalkOk]
  clears := by simp [Shared.new]
  gone := by simp [Shared.new, Walk.clearedTo]

omit [DecidableEq K] in
/-- More maps were seen. -/
theorem WalkOk.mono {seen seen' : List (StripedMap K V)} {walk : Walk K V}
    (h : WalkOk fn capa seen walk) (hsub : ∀ m ∈ seen, m ∈ seen') : WalkOk fn capa seen' walk := by
  cases walk with
  | ranging again bucket visited => exact ⟨h.1, h.2.mono hsub⟩
  | ranged visited stopped =>
    obtain ⟨hne, n, es, hn, hes, hrest⟩ := h
    exact ⟨fun hnil => hne (List.eq_nil_iff_forall_not_mem.mpr fun m hm => by
      simpa [hnil] using hsub m hm), n, es, hn, hes.mono hsub, hrest⟩
  | sizing bucket total =>
    obtain ⟨hle, es, hes, hlen⟩ := h
    exact ⟨hle, es, hes.mono hsub, hlen⟩
  | sized total =>
    obtain ⟨hne, es, hes, hlen⟩ := h
    exact ⟨fun hnil => hne (List.eq_nil_iff_forall_not_mem.mpr fun m hm => by
      simpa [hnil] using hsub m hm), es, hes.mono hsub, hlen⟩
  | idle => trivial
  | clearing bucket => trivial
  | cleared => trivial

theorem Shared.Inv.setMap (h : s.Inv fn capa) {map : StripedMap K V} (hmap : Sound fn capa map)
    (hgone : ∀ i k, (fn k).toNat < (s.walks i).clearedTo capa → k ∉ s.put i → map.lookup k = none) :
    (s.setMap map).Inv fn capa := by
  refine ⟨hmap, fun i m hm => ?_, fun i hactive => ?_, fun i => ?_, h.clears, hgone⟩
  · simp only [Shared.setMap] at hm
    split at hm
    · rcases List.mem_append.mp hm with hm | hm
      · exact h.seen i m hm
      · rwa [List.mem_singleton.mp hm]
    · exact h.seen i m hm
  · have hact : (s.walks i).active = true := hactive
    simp [Shared.setMap, hact]
  · refine (h.walks i).mono fun m hm => ?_
    simp only [Shared.setMap]
    split
    · exact List.mem_append_left _ hm
    · exact hm

theorem Shared.Inv.keyOp (lay : Layout K V) (h : s.Inv fn capa) (op : KeyOp K V) :
    (s.keyOp lay op).Inv fn capa := by
  have hnote : (if op.puts then s.note op.key else s).Inv fn capa := by
    split
    next =>
      refine ⟨h.map, h.seen, h.now, h.walks, h.clears, fun i k hk hput => h.gone i k hk ?_⟩
      exact fun hmem => hput (List.mem_append_left _ hmem)
    next => exact h
  have hsame : (if op.puts then s.note op.key else s).map = s.map ∧
      (if op.puts then s.note op.key else s).walks = s.walks := by
    split <;> exact ⟨rfl, rfl⟩
  unfold Shared.keyOp
  refine hnote.setMap (hsame.1 ▸ h.map.call lay op) fun i k hk hput => ?_
  refine lookup_call lay op (fun hputs => ?_) (hnote.gone i k hk hput)
  rintro rfl
  simp [hputs, Shared.note] at hput

/-- A thread moves on; the map stays. -/
theorem Shared.Inv.setWalk (h : s.Inv fn capa) {i : Nat} {walk : Walk K V}
    (hactive : walk.active = true → (s.walks i).active = true)
    (hwalk : WalkOk fn capa (s.seen i) walk)
    (hclears : ∀ bucket, walk = .clearing bucket → bucket ≤ capa)
    (hgone : walk.clearedTo capa ≤ (s.walks i).clearedTo capa) :
    (s.setWalk i walk).Inv fn capa := by
  refine ⟨h.map, h.seen, fun j hj => ?_, fun j => ?_, fun j bucket hj => ?_, fun j k hk hput => ?_⟩
  · by_cases hij : j = i
    · subst hij
      exact h.now j (hactive (by simpa [Shared.setWalk] using hj))
    · exact h.now j (by simpa [Shared.setWalk, hij] using hj)
  · by_cases hij : j = i
    · subst hij
      simpa [Shared.setWalk] using hwalk
    · simpa [Shared.setWalk, hij] using h.walks j
  · by_cases hij : j = i
    · subst hij
      exact hclears bucket (by simpa [Shared.setWalk] using hj)
    · exact h.clears j bucket (by simpa [Shared.setWalk, hij] using hj)
  · by_cases hij : j = i
    · subst hij
      refine h.gone j k (Nat.lt_of_lt_of_le ?_ hgone) hput
      simpa [Shared.setWalk] using hk
    · exact h.gone j k (by simpa [Shared.setWalk, hij] using hk) hput

theorem Shared.Inv.begin (h : s.Inv fn capa) (i : Nat) {walk : Walk K V}
    (hwalk : WalkOk fn capa [s.map] walk) (hzero : walk.clearedTo capa = 0)
    (hclears : ∀ bucket, walk = .clearing bucket → bucket ≤ capa) :
    (s.begin i walk).Inv fn capa := by
  refine ⟨h.map, fun j m hm => ?_, fun j hj => ?_, fun j => ?_, fun j bucket hj => ?_,
    fun j k hk hput => ?_⟩
  · by_cases hij : j = i
    · subst hij
      simp only [Shared.begin, Function.update_self, List.mem_singleton] at hm
      exact hm ▸ h.map
    · exact h.seen j m (by simpa [Shared.begin, hij] using hm)
  · by_cases hij : j = i
    · subst hij
      simp [Shared.begin]
    · simpa [Shared.begin, hij] using h.now j (by simpa [Shared.begin, hij] using hj)
  · by_cases hij : j = i
    · subst hij
      simpa [Shared.begin] using hwalk
    · simpa [Shared.begin, hij] using h.walks j
  · by_cases hij : j = i
    · subst hij
      exact hclears bucket (by simpa [Shared.begin] using hj)
    · exact h.clears j bucket (by simpa [Shared.begin, hij] using hj)
  · by_cases hij : j = i
    · subst hij
      simp [Shared.begin, hzero] at hk
    · exact h.gone j k (by simpa [Shared.begin, hij] using hk) (by simpa [Shared.begin, hij] using hput)

omit [DecidableEq K] in
/-- The bucket that is read next, as a part. -/
theorem part_of_bucket {m : StripedMap K V} {bucket : Nat} {b : UMap K V}
    (hb : m.buckets[bucket]? = some b) : (divided fn).part m bucket = b.entries := by
  simp [divided, hb]

/-- A bucket that is there is one of the `capa`, and behind the last there
is none. -/
theorem Sound.bucket_cases {m : StripedMap K V} (h : Sound fn capa m) {bucket : Nat}
    (hle : bucket ≤ capa) :
    (m.buckets[bucket]? = none ∧ bucket = capa) ∨
      ∃ b, m.buckets[bucket]? = some b ∧ bucket + 1 ≤ capa := by
  rcases Nat.lt_or_ge bucket capa with hlt | hge
  · exact .inr ⟨_, List.getElem?_eq_getElem (by rw [h.capa]; exact hlt), hlt⟩
  · exact .inl ⟨by rw [List.getElem?_eq_none_iff, h.capa]; exact hge, Nat.le_antisymm hle hge⟩

theorem Shared.Inv.rangeNext (h : s.Inv fn capa) {i bucket : Nat} {again : List (K × V) → Bool}
    {visited : List (K × V)} (hwalk : s.walks i = .ranging again bucket visited) :
    (s.rangeNext i again bucket visited).Inv fn capa := by
  have hok := h.walks i
  rw [hwalk] at hok
  obtain ⟨hle, hcoll⟩ := hok
  have hact : (s.walks i).active = true := by rw [hwalk]; rfl
  unfold Shared.rangeNext
  rcases h.map.bucket_cases hle with ⟨hnone, rfl⟩ | ⟨b, hb, hlt⟩
  · rw [hnone]
    refine h.setWalk (fun _ => hact) ?_ (by simp) (Nat.zero_le _)
    exact ⟨List.ne_nil_of_mem (h.now i hact), _, visited, Nat.le_refl _, hcoll, List.prefix_rfl,
      fun _ => ⟨rfl, rfl⟩⟩
  · rw [hb]
    obtain ⟨met, hmet, hres, hall⟩ := rangeBucket_visited again b.entries visited
    have hnext := hcoll.read (h.now i hact)
    rw [part_of_bucket hb] at hnext
    simp only [hres]
    split
    next hgo =>
      refine h.setWalk (fun _ => hact) ⟨hlt, ?_⟩ (by simp) (Nat.zero_le _)
      rwa [hall hgo]
    next =>
      refine h.setWalk (fun _ => hact) ?_ (by simp) (Nat.zero_le _)
      exact ⟨List.ne_nil_of_mem (h.now i hact), _, _, hlt, hnext,
        (List.prefix_append_right_inj _).mpr hmet, fun hf => by cases hf⟩

theorem Shared.Inv.sizeNext (h : s.Inv fn capa) {i bucket total : Nat}
    (hwalk : s.walks i = .sizing bucket total) : (s.sizeNext i bucket total).Inv fn capa := by
  have hok := h.walks i
  rw [hwalk] at hok
  obtain ⟨hle, es, hcoll, hlen⟩ := hok
  have hact : (s.walks i).active = true := by rw [hwalk]; rfl
  unfold Shared.sizeNext
  rcases h.map.bucket_cases hle with ⟨hnone, rfl⟩ | ⟨b, hb, hlt⟩
  · rw [hnone]
    exact h.setWalk (fun _ => hact) ⟨List.ne_nil_of_mem (h.now i hact), es, hcoll, hlen⟩ (by simp)
      (Nat.zero_le _)
  · rw [hb]
    have hnext := hcoll.read (h.now i hact)
    rw [part_of_bucket hb] at hnext
    exact h.setWalk (fun _ => hact) ⟨hlt, _, hnext, by simp [hlen]⟩ (by simp) (Nat.zero_le _)

theorem Shared.Inv.clearNext (h : s.Inv fn capa) {i bucket : Nat}
    (hwalk : s.walks i = .clearing bucket) : (s.clearNext i bucket).Inv fn capa := by
  have hle := h.clears i bucket hwalk
  have hact : (s.walks i).active = true := by rw [hwalk]; rfl
  unfold Shared.clearNext
  rw [h.map.capa]
  split
  next hlt =>
    have hlookup := lookup_clearBucket h.map bucket
    -- First the bucket, then the thread: the other way round nothing would hold in between.
    have hmap : (s.setMap (s.map.setBucket bucket .empty)).Inv fn capa := by
      refine h.setMap (h.map.clearBucket bucket) fun j k hk hput => ?_
      rw [hlookup]
      split
      · rfl
      · exact h.gone j k hk hput
    have hswap : (s.setWalk i (.clearing (bucket + 1))).setMap (s.map.setBucket bucket .empty) =
        (s.setMap (s.map.setBucket bucket .empty)).setWalk i (.clearing (bucket + 1)) := by
      simp only [Shared.setMap, Shared.setWalk, Shared.mk.injEq, true_and, and_true]
      funext j
      by_cases hij : j = i
      · subst hij
        have hact' : (Walk.clearing (bucket + 1) : Walk K V).active = true := rfl
        simp [hact, hact']
      · simp [hij]
    rw [hswap]
    refine ⟨hmap.map, hmap.seen, fun j hj => ?_, fun j => ?_, fun j bucket' hj => ?_,
      fun j k hk hput => ?_⟩
    · by_cases hij : j = i
      · subst hij
        exact hmap.now j hact
      · exact hmap.now j (by simpa [Shared.setWalk, hij] using hj)
    · by_cases hij : j = i
      · subst hij
        simp [Shared.setWalk, WalkOk]
      · simpa [Shared.setWalk, hij] using hmap.walks j
    · by_cases hij : j = i
      · subst hij
        simp only [Shared.setWalk, Function.update_self, Walk.clearing.injEq] at hj
        exact hj ▸ hlt
      · exact hmap.clears j bucket' (by simpa [Shared.setWalk, hij] using hj)
    · by_cases hij : j = i
      · subst hij
        simp only [Shared.setWalk, Function.update_self, Walk.clearedTo] at hk
        change (s.map.setBucket bucket .empty).lookup k = none
        rw [hlookup]
        split
        next => rfl
        next hne =>
          refine h.gone j k ?_ hput
          rw [hwalk]
          exact Nat.lt_of_le_of_ne (Nat.le_of_lt_succ hk) hne
      · exact hmap.gone j k (by simpa [Shared.setWalk, hij] using hk) hput
  next hge =>
    refine h.setWalk (by simp [Walk.active]) trivial (by simp) ?_
    rw [hwalk]
    exact Nat.le_of_not_lt hge

theorem Shared.Inv.step (h : s.Inv fn capa) (hs : Step s a s') : s'.Inv fn capa := by
  cases hs with
  | keyOp lay => exact h.keyOp lay _
  | beginRange => exact h.begin _ ⟨Nat.zero_le _, .start⟩ rfl (by simp)
  | beginSize => exact h.begin _ ⟨Nat.zero_le _, [], .start, rfl⟩ rfl (by simp)
  | beginClear =>
    refine h.begin _ trivial rfl fun bucket hb => ?_
    cases hb
    exact Nat.zero_le _
  | range hwalk => exact h.rangeNext hwalk
  | size hwalk => exact h.sizeNext hwalk
  | clear hwalk => exact h.clearNext hwalk

end Invariant

/-! ## What the walks are worth -/

section Collections

variable {fn : K → Int} {capa n : Nat} {seen : List (StripedMap K V)} {es : List (K × V)}

/-- A pair that was collected was in the map at that time. -/
theorem collected_lookup (hseen : ∀ m ∈ seen, Sound fn capa m)
    (h : (divided fn).Collected (· ∈ seen) n es) :
    ∀ e ∈ es, ∃ m ∈ seen, m.lookup e.1 = some e.2 := by
  intro e he
  obtain ⟨m, hm, hpart⟩ := h.sound (fun m hm => (hseen m hm).placed) e he
  refine ⟨m, hm, ((hseen m hm).lookup_iff e.1 e.2).mpr ⟨?_, hpart⟩⟩
  simp only [divided] at hpart
  cases hb : m.buckets[(fn e.1).toNat]? with
  | none => simp [hb] at hpart
  | some b =>
    simp only [hb, Option.map_some, Option.getD_some] at hpart
    have hhome := (hseen m hm).home _ b hb e.1 e.2 ((b.find_eq_some_iff e.1 e.2).mpr hpart)
    rw [(hseen m hm).stripFn] at hhome
    exact hhome ▸ Int.natCast_nonneg _

/-- A key that was there throughout was collected. -/
theorem collected_complete (hseen : ∀ m ∈ seen, Sound fn capa m) (hne : seen ≠ [])
    (h : (divided fn).Collected (· ∈ seen) capa es) {k : K}
    (hk : ∀ m ∈ seen, m.lookup k ≠ none) : k ∈ es.map Prod.fst := by
  obtain ⟨m0, hm0⟩ := List.exists_mem_of_ne_nil seen hne
  refine h.complete ((hseen m0 hm0).inRange (hk m0 hm0)).2 fun m hm => ?_
  obtain ⟨v, hv⟩ := Option.ne_none_iff_exists'.mp (hk m hm)
  exact ⟨v, (((hseen m hm).lookup_iff k v).mp hv).2⟩

theorem collected_nodup (hseen : ∀ m ∈ seen, Sound fn capa m)
    (h : (divided fn).Collected (· ∈ seen) n es) : (es.map Prod.fst).Nodup :=
  h.nodup fun m hm => (hseen m hm).placed

end Collections

/-- **Walks beside writers.** However calls of all threads interleave: a
finished `range` has met no key twice and every pair while it was in the
map; if its handler did not stop it, it has met every key that was in the
map throughout. What `size` says is the number of some such keys. And
behind a `clear` the map has only keys put since the `clear` began. -/
theorem walks_consistent (fn : K → Int) (capa : Nat) {tr : List (Event K V)} {s : Shared K V}
    (h : (lts fn capa).Run tr s) (i : Nat) :
    (∀ visited stopped, s.walks i = .ranged visited stopped →
      (visited.map Prod.fst).Nodup ∧ (∀ e ∈ visited, ∃ m ∈ s.seen i, m.lookup e.1 = some e.2) ∧
        (stopped = false → ∀ k, (∀ m ∈ s.seen i, m.lookup k ≠ none) → k ∈ visited.map Prod.fst)) ∧
      (∀ total, s.walks i = .sized total → ∃ keys : List K, keys.length = total ∧ keys.Nodup ∧
        (∀ k ∈ keys, ∃ m ∈ s.seen i, m.lookup k ≠ none) ∧
          ∀ k, (∀ m ∈ s.seen i, m.lookup k ≠ none) → k ∈ keys) ∧
      (s.walks i = .cleared → ∀ k, k ∉ s.put i → s.map.lookup k = none) := by
  have hinv : s.Inv fn capa := by
    refine Lts.Run.invariant (I := fun _ s => Shared.Inv fn capa s) ?_ ?_ h
    · rintro s rfl
      exact Shared.inv_new fn capa
    · intro tr s a s' _ h hs
      exact h.step hs
  have hseen := hinv.seen i
  have hwalk := hinv.walks i
  refine ⟨fun visited stopped heq => ?_, fun total heq => ?_, fun heq k hput => ?_⟩
  · rw [heq] at hwalk
    obtain ⟨hne, n, es, hn, hcoll, hpre, hall⟩ := hwalk
    refine ⟨?_, fun e he => collected_lookup hseen hcoll e (hpre.subset he), fun hstop k hk => ?_⟩
    · exact (collected_nodup hseen hcoll).sublist (hpre.sublist.map _)
    · obtain ⟨rfl, rfl⟩ := hall hstop
      exact collected_complete hseen hne hcoll hk
  · rw [heq] at hwalk
    obtain ⟨hne, es, hcoll, hlen⟩ := hwalk
    refine ⟨es.map Prod.fst, by simp [hlen], collected_nodup hseen hcoll, fun k hk => ?_,
      fun k hk => collected_complete hseen hne hcoll hk⟩
    obtain ⟨e, he, rfl⟩ := List.mem_map.mp hk
    obtain ⟨m, hm, hlookup⟩ := collected_lookup hseen hcoll e he
    exact ⟨m, hm, by simp [hlookup]⟩
  · by_cases hk : s.map.lookup k = none
    · exact hk
    · refine hinv.gone i k ?_ hput
      rw [heq]
      exact (hinv.map.inRange hk).2

/-! ## A size the map never had -/

/-- New entries go to the end. -/
def atEnd : Layout Int Nat := ⟨id, fun _ => .refl _⟩

/-- A key moves from the bucket that was counted to the one that was not. -/
def movedTrace : List (Event Int Nat) :=
  [.keyOp (.emplace 0 7), .beginSize 0, .next 0, .keyOp (.erase 0), .keyOp (.emplace 1 7), .next 0,
    .next 0]

theorem moved_run :
    ∃ s, (lts id 2).Run movedTrace s ∧ s.walks 0 = .sized 2 ∧ s.map.size = 1 := by
  have h0 : (lts id 2).Run [] (Shared.new (V := Nat) id 2) := .start rfl
  have h1 := h0.snoc (@Step.keyOp _ _ _ _ (.emplace 0 7) atEnd)
  have h2 := h1.snoc (@Step.beginSize _ _ _ _ 0 rfl)
  have h3 := h2.snoc (@Step.size _ _ _ _ 0 0 0 rfl)
  have h4 := h3.snoc (@Step.keyOp _ _ _ _ (.erase 0) atEnd)
  have h5 := h4.snoc (@Step.keyOp _ _ _ _ (.emplace 1 7) atEnd)
  have h6 := h5.snoc (@Step.size _ _ _ _ 0 1 1 rfl)
  have h7 := h6.snoc (@Step.size _ _ _ _ 0 2 2 rfl)
  exact ⟨_, h7, rfl, rfl⟩

/-- The theorem on that run: `size` says 2, of a map with one key, and both
keys were there while it counted. -/
theorem walks_consistent_moved :
    ∃ s, (lts id 2).Run movedTrace s ∧ s.map.size = 1 ∧
      ∃ keys : List Int, keys.length = 2 ∧ keys.Nodup ∧
        ∀ k ∈ keys, ∃ m ∈ s.seen 0, m.lookup k ≠ none := by
  obtain ⟨s, hrun, hsized, hsize⟩ := moved_run
  obtain ⟨-, hcount, -⟩ := walks_consistent id 2 hrun 0
  obtain ⟨keys, hlen, hnodup, hthere, -⟩ := hcount 2 hsized
  exact ⟨s, hrun, hsize, keys, hlen, hnodup, hthere⟩

end HighJump.Sync.StripedMap
