/-
HighJump.Io.ChainBufferEnds — which appends of `chain_buffer` come to an
end.

The loop of `append` copies what the last block has room for. The
constructor takes a block size of zero, and then a new block has no room:
a buffer of that block size takes data only into a block it has stolen
from another one. Everywhere else each turn copies a byte at least.

`storeLts` is any number of buffers of any block sizes, under calls and
splices of every kind, sound ones and others.
-/
import HighJump.Io.ChainBufferTheorems

namespace HighJump.Io.ChainBuffer

open HighJump.Lib

/-- `append(data, len)` ends: it returns, or a vector refuses to grow. -/
def AppendEnds (b : ChainBuffer) (data : Bytes) : Prop :=
  ∃ fuel, appendLoop wrapSub fuel b data ≠ .error .diverges

/-- No vector is larger than vectors are. -/
structure Vectors (b : ChainBuffer) : Prop where
  block : b.blockSize ≤ maxSize
  blocks : ∀ blk ∈ b.blocks, blk.length ≤ maxSize

/-- The last block has room, or a new one would have: a turn copies. -/
def Copies (b : ChainBuffer) : Prop :=
  b.blockSize ≠ 0 ∨ ∃ back, b.blocks.getLast? = some back ∧ back ≠ []

variable {b : ChainBuffer} {p : Bytes}

/-! ## One turn -/

theorem Vectors.withRoom (h : b.Vectors) : b.withRoom.Vectors ∧
    b.withRoom.blockSize = b.blockSize ∧ ∃ back, b.withRoom.blocks.getLast? = some back := by
  unfold ChainBuffer.withRoom
  cases hlast : b.blocks.getLast? with
  | none => exact ⟨⟨h.block, by simp⟩, rfl, [], rfl⟩
  | some back =>
    dsimp only
    split
    · refine ⟨⟨h.block, fun blk hmem => ?_⟩, rfl, [], by simp⟩
      rcases List.mem_append.mp hmem with hm | hm
      · exact h.blocks blk hm
      · rw [List.mem_singleton.mp hm]
        exact Nat.zero_le _
    · exact ⟨h, rfl, back, hlast⟩

/-- Where a turn copies, the last block is not full after `withRoom`. -/
theorem Copies.withRoom (hc : b.Copies) : b.withRoom.Copies ∧
    ∀ back, b.withRoom.blocks.getLast? = some back → back.length ≠ b.blockSize := by
  unfold ChainBuffer.withRoom
  cases hlast : b.blocks.getLast? with
  | none =>
    rcases hc with hc | ⟨back, hback, -⟩
    · refine ⟨.inl hc, fun back hback => ?_⟩
      obtain rfl : [] = back := Option.some.inj hback
      exact fun h => hc h.symm
    · cases hlast.symm.trans hback
  | some back =>
    dsimp only
    split
    · rename_i hfull
      have hzero : b.blockSize ≠ 0 := by
        rcases hc with hc | ⟨back', hback', hne⟩
        · exact hc
        · obtain rfl : back = back' := Option.some.inj (hlast.symm.trans hback')
          rw [← hfull]
          exact fun h => hne (List.eq_nil_of_length_eq_zero h)
      refine ⟨.inl hzero, fun back' hback' => ?_⟩
      rw [List.getLast?_concat] at hback'
      obtain rfl : [] = back' := Option.some.inj hback'
      exact fun h => hzero h.symm
    · rename_i hroom
      refine ⟨hc, fun back' hback' => ?_⟩
      obtain rfl : back = back' := Option.some.inj (hlast.symm.trans hback')
      exact hroom

/-- What a turn does with the block it finds. -/
theorem appendLoop_turn {sub : Nat → Nat → Except Error Nat} {fuel : Nat} {back : Bytes}
    {space : Nat} (hp : p ≠ []) (hlast : b.withRoom.blocks.getLast? = some back)
    (hsub : sub b.withRoom.blockSize back.length = .ok space) :
    appendLoop sub (fuel + 1) b p =
      if back.length + min space p.length ≤ maxSize then
        appendLoop sub fuel { b.withRoom with
          blocks := b.withRoom.blocks.dropLast ++ [back ++ p.take (min space p.length)],
          totalSize := b.withRoom.totalSize + min space p.length } (p.drop (min space p.length))
      else .error .lengthError := by
  simp only [appendLoop, if_pos (List.length_pos_iff.mpr hp), hlast, hsub]
  rfl

theorem appendLoop_nil (sub : Nat → Nat → Except Error Nat) (fuel : Nat) (b : ChainBuffer) :
    appendLoop sub (fuel + 1) b [] = .ok b := rfl

/-- A turn with a block that is there keeps the vectors. -/
theorem Vectors.push (h : b.Vectors) {chunk : Bytes} {total : Nat} {back : Bytes}
    (hfits : (back ++ chunk).length ≤ maxSize) :
    Vectors { b with blocks := b.blocks.dropLast ++ [back ++ chunk], totalSize := total } := by
  refine ⟨h.block, fun blk hmem => ?_⟩
  rcases List.mem_append.mp hmem with hm | hm
  · exact h.blocks blk (List.dropLast_subset _ hm)
  · rw [List.mem_singleton.mp hm]
    exact hfits

/-! ## The loop -/

/-- **Every turn copies a byte at least.** -/
theorem appendLoop_ends (fuel : Nat) : ∀ {b : ChainBuffer} {p : Bytes}, b.Vectors → b.Copies →
    p.length < fuel → appendLoop wrapSub fuel b p ≠ .error .diverges := by
  induction fuel with
  | zero =>
    intro b p _ _ hf
    omega
  | succ fuel ih =>
    intro b p hv hc hf
    by_cases hp : p = []
    · subst hp
      rw [appendLoop_nil]
      nofun
    obtain ⟨hv', hblock, back, hlast⟩ := hv.withRoom
    obtain ⟨-, hnfull⟩ := hc.withRoom
    have hlt : maxSize < 2 ^ 64 := by decide
    have hback := hv'.blocks back (List.mem_of_getLast? hlast)
    have hbs := hv'.block
    have hne : back.length ≠ b.withRoom.blockSize := by
      rw [hblock]
      exact hnfull back hlast
    obtain ⟨space, hpos, hsub⟩ := wrapSub_pos (ε := Error) (a := b.withRoom.blockSize)
      (b := back.length) (by omega) (by omega) hne
    have hplen := List.length_pos_iff.mpr hp
    rw [appendLoop_turn hp hlast hsub]
    split
    · rename_i hfits
      have htake : (p.take (min space p.length)).length = min space p.length := by
        rw [List.length_take]
        omega
      refine ih (hv'.push ?_) (.inr ⟨_, List.getLast?_concat, ?_⟩) ?_
      · rw [List.length_append, htake]
        exact hfits
      · refine List.append_ne_nil_of_right_ne_nil _ (List.ne_nil_of_length_pos ?_)
        rw [htake]
        omega
      · rw [List.length_drop]
        omega
    · nofun

/-- **No turn copies anything.** -/
theorem appendLoop_diverges (hp : p ≠ []) (fuel : Nat) : ∀ {b : ChainBuffer}, ¬ b.Copies →
    appendLoop wrapSub fuel b p = .error .diverges := by
  induction fuel with
  | zero => exact fun _ => rfl
  | succ fuel ih =>
    intro b hc
    obtain ⟨hzero, hnone⟩ := not_or.mp hc
    rw [ne_eq, not_not] at hzero
    -- the last block is a new one, and has no room either
    have hlast : b.withRoom.blocks.getLast? = some [] ∧ b.withRoom.blockSize = 0 := by
      unfold ChainBuffer.withRoom
      cases hback : b.blocks.getLast? with
      | none => exact ⟨rfl, hzero⟩
      | some back =>
        have hnil : back = [] := by
          by_contra hne
          exact hnone ⟨back, hback, hne⟩
        dsimp only
        rw [if_pos (by rw [hnil, hzero]; rfl)]
        exact ⟨List.getLast?_concat, hzero⟩
    have hsub : (wrapSub b.withRoom.blockSize ([] : Bytes).length : Except Error Nat) = .ok 0 := by
      rw [hlast.2]
      rfl
    rw [appendLoop_turn hp hlast.1 hsub, if_pos (by simp), Nat.zero_min, List.drop_zero]
    refine ih (not_or.mpr ⟨not_not.mpr hlast.2, ?_⟩)
    rintro ⟨back, hback, hne⟩
    rw [List.getLast?_concat] at hback
    exact hne (Option.some.inj hback).symm

theorem appendEnds_iff (hv : b.Vectors) : AppendEnds b p ↔ p = [] ∨ b.Copies := by
  constructor
  · rintro ⟨fuel, hends⟩
    by_contra hno
    obtain ⟨hp, hc⟩ := not_or.mp hno
    exact hends (appendLoop_diverges hp fuel hc)
  · rintro (rfl | hc)
    · exact ⟨1, by rw [appendLoop_nil]; nofun⟩
    · exact ⟨p.length + 1, appendLoop_ends _ hv hc (Nat.lt_succ_self _)⟩

/-! ## Every buffer there is -/

section Kept

variable {sub : Nat → Nat → Except Error Nat} {b' other other' : ChainBuffer}

/-- What a mapped result was mapped from. -/
theorem ok_of_map {α β : Type} {f : α → β} {x : Except Error α} {y : β} (h : x.map f = .ok y) :
    ∃ a, x = .ok a ∧ f a = y := by
  cases x with
  | error e => cases h
  | ok a => exact ⟨a, rfl, Except.ok.inj h⟩

theorem appendLoop_vectors (fuel : Nat) : ∀ {b b' : ChainBuffer} {p : Bytes}, b.Vectors →
    appendLoop sub fuel b p = .ok b' → b'.Vectors := by
  induction fuel with
  | zero =>
    intro b b' p _ hrun
    cases hrun
  | succ fuel ih =>
    intro b b' p hv hrun
    by_cases hp : p = []
    · subst hp
      rw [appendLoop_nil] at hrun
      exact Except.ok.inj hrun ▸ hv
    obtain ⟨hv', -, back, hlast⟩ := hv.withRoom
    cases hsub : sub b.withRoom.blockSize back.length with
    | error e =>
      simp only [appendLoop, if_pos (List.length_pos_iff.mpr hp), hlast, hsub] at hrun
      cases hrun
    | ok space =>
      rw [appendLoop_turn hp hlast hsub] at hrun
      split at hrun
      · rename_i hfits
        refine ih (hv'.push ?_) hrun
        rw [List.length_append, List.length_take]
        omega
      · cases hrun

theorem consumeLoop_vectors (fuel : Nat) : ∀ {b b' : ChainBuffer} {len consumed n : Nat},
    b.Vectors → consumeLoop sub fuel b len consumed = .ok (b', n) → b'.Vectors := by
  induction fuel with
  | zero =>
    intro b b' len consumed n _ hrun
    cases hrun
  | succ fuel ih =>
    intro b b' len consumed n hv hrun
    rw [consumeLoop] at hrun
    split at hrun
    · split at hrun
      · cases hrun
      · rename_i blk _
        cases hsub : sub blk.length b.readPos with
        | error e =>
          rw [hsub] at hrun
          cases hrun
        | ok avail =>
          rw [hsub] at hrun
          simp only [bind, Except.bind] at hrun
          split at hrun
          · cases hrun
            exact ⟨hv.block, hv.blocks⟩
          · have hnext : Vectors { b with totalSize := b.totalSize - avail,
                                          readBlock := b.readBlock + 1, readPos := 0 } :=
              ⟨hv.block, hv.blocks⟩
            exact ih hnext hrun
    · split at hrun
      · split at hrun
        · cases hrun
          exact ⟨hv.block, fun blk hm => hv.blocks blk (List.mem_of_mem_drop hm)⟩
        · cases hrun
      · cases hrun
        exact hv

theorem Vectors.clear (h : b.Vectors) : b.clear.Vectors := ⟨h.block, by simp [ChainBuffer.clear]⟩

theorem exec_vectors {op : Op} {a : Answer} (h : b.Vectors)
    (hrun : exec sub b op = .ok (b', a)) : b'.Vectors := by
  cases op with
  | append data =>
    obtain ⟨b₁, hb₁, heq⟩ := ok_of_map hrun
    cases heq
    exact appendLoop_vectors _ h hb₁
  | read len =>
    obtain ⟨_, -, heq⟩ := ok_of_map hrun
    cases heq
    exact h
  | consume len =>
    obtain ⟨⟨b₁, n⟩, hb₁, heq⟩ := ok_of_map hrun
    cases heq
    exact consumeLoop_vectors _ h hb₁
  | clear =>
    cases hrun
    exact h.clear

/-- Copying the blocks of another buffer one by one. -/
theorem foldlM_append_vectors (blks : List Bytes) : ∀ {b b' : ChainBuffer}, b.Vectors →
    blks.foldlM (fun b blk => if blk.isEmpty then .ok b else append sub b blk) b = .ok b' →
    b'.Vectors := by
  induction blks with
  | nil =>
    intro b b' h hrun
    cases hrun
    exact h
  | cons blk blks ih =>
    intro b b' h hrun
    rw [List.foldlM_cons] at hrun
    by_cases hempty : blk.isEmpty = true
    · rw [if_pos hempty] at hrun
      exact ih h hrun
    · rw [if_neg hempty] at hrun
      cases hb₁ : append sub b blk with
      | error e =>
        rw [hb₁] at hrun
        cases hrun
      | ok b₁ =>
        rw [hb₁] at hrun
        exact ih (appendLoop_vectors _ h hb₁) hrun

theorem appendBuffer_vectors (h : b.Vectors) (h' : other.Vectors)
    (hrun : appendBuffer sub b other = .ok (b', other')) : b'.Vectors ∧ other'.Vectors := by
  rw [appendBuffer] at hrun
  split at hrun
  · cases hrun
    exact ⟨h, h'⟩
  · obtain ⟨b₁, hb₁, heq⟩ := ok_of_map hrun
    cases heq
    refine ⟨?_, h'.clear⟩
    have hv : b₁.Vectors := by
      rw [appendBlocks] at hb₁
      split at hb₁
      · cases hb₁
        exact ⟨h.block, h'.blocks⟩
      · exact foldlM_append_vectors _ h hb₁
    exact ⟨hv.block, hv.blocks⟩

end Kept

section Store

variable {ι : Type} [DecidableEq ι]

/-- Buffers of any block sizes the constructor takes, and all calls and
splices of two different ones. -/
def storeLts : Lts (ι → ChainBuffer) (Act ι × Answer) where
  init s := ∀ i, ∃ bs, new bs = .ok (s i)
  step s a s' := (∀ i j, a.1 = .splice i j → i ≠ j) ∧ execAct wrapSub s a.1 = .ok (s', a.2)

/-- **In every run the vectors stay vectors.** -/
theorem storeLts_vectors {tr : List (Act ι × Answer)} {s : ι → ChainBuffer}
    (h : (storeLts (ι := ι)).Run tr s) (i : ι) : (s i).Vectors := by
  refine Lts.Run.invariant (M := storeLts) (I := fun _ s => ∀ i, (s i).Vectors)
    (fun s hs i => ?_) (fun _ s a s' _ hi hstep => ?_) h i
  · obtain ⟨bs, hnew⟩ := hs i
    rw [new] at hnew
    split at hnew
    · rename_i hbs
      rw [← Except.ok.inj hnew]
      exact ⟨hbs, by simp⟩
    · cases hnew
  · have hput : ∀ {s : ι → ChainBuffer} (j : ι) {b : ChainBuffer}, (∀ i, (s i).Vectors) →
        b.Vectors → ∀ i, (Function.update s j b i).Vectors := by
      intro s j b hs hb i
      by_cases hij : i = j
      · rw [hij, Function.update_self]
        exact hb
      · rw [Function.update_of_ne hij]
        exact hs i
    obtain ⟨act, ans⟩ := a
    obtain ⟨-, hexec⟩ := hstep
    cases act with
    | call j op =>
      obtain ⟨⟨b, r⟩, hb, heq⟩ := ok_of_map hexec
      cases heq
      exact hput j hi (exec_vectors (hi j) hb)
    | splice j k =>
      obtain ⟨⟨b, c⟩, hb, heq⟩ := ok_of_map hexec
      cases heq
      obtain ⟨hvb, hvc⟩ := appendBuffer_vectors (hi j) (hi k) hb
      exact hput k (hput j hi hvb) hvc

end Store

end HighJump.Io.ChainBuffer
