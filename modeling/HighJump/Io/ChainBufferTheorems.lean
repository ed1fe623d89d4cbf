/-
HighJump.Io.ChainBufferTheorems — `chain_buffer` is a byte queue, and what
splicing does to it.

`Rep` says that a buffer holds a byte string: the bytes from the cursor on
are the string, `_total_size` is its length, and the cursor is in a block
that is there. Every call keeps it (`exec_spec`), so every run does.
What a block may hold is a parameter of `Rep`: in a buffer that was only
appended to it is `_block_size` at most, and then no subtraction goes
below zero; after a splice it is whatever the other buffer's blocks held,
and `_block_size - back.size()` may wrap, which does no harm.

Splicing is right in one case only: the other buffer is empty, or this
one takes its blocks over and no byte of them was consumed
(`appendBuffer_iff`). Copying counts every byte twice.
-/
import HighJump.Io.ChainBuffer
import HighJump.Lib.Lts
import HighJump.Lib.Refine

namespace HighJump.Io.ChainBuffer

open HighJump.Lib

/-! ## What a buffer holds -/

/-- The bytes from the cursor on. -/
def unread (b : ChainBuffer) : Bytes := (b.blocks.drop b.readBlock).flatten.drop b.readPos

/-- `b` holds `w`, in blocks of the sizes `G` allows. -/
structure Rep (G : Nat → Prop) (bs : Nat) (b : ChainBuffer) (w : Bytes) : Prop where
  block : b.blockSize = bs
  unread : b.unread = w
  total : b.totalSize = w.length
  good : ∀ blk ∈ b.blocks, G blk.length
  nil : b.blocks = [] → b.readBlock = 0 ∧ b.readPos = 0
  cursor : b.blocks ≠ [] → ∃ blk, b.blocks[b.readBlock]? = some blk ∧ b.readPos ≤ blk.length

/-- The block sizes `G` that appending keeps: there is room in every block
that is not full. -/
structure Grows (sub : Nat → Nat → Except Error Nat) (bs : Nat) (G : Nat → Prop) : Prop where
  pos : 1 ≤ bs
  zero : G 0
  le : ∀ m, G m → m ≤ maxSize
  space : ∀ m, G m → m ≠ bs →
    ∃ k, 1 ≤ k ∧ sub bs m = .ok k ∧ ∀ j, j ≤ k → m + j ≤ maxSize → G (m + j)

/-- The one way an append fails: a block with room beyond what a vector
holds. -/
def Outgrows (sub : Nat → Nat → Except Error Nat) (bs : Nat) (G : Nat → Prop) : Prop :=
  ∃ m k, G m ∧ sub bs m = .ok k ∧ maxSize < m + k

variable {G : Nat → Prop} {bs : Nat} {b : ChainBuffer} {w : Bytes}
  {sub : Nat → Nat → Except Error Nat}

/-- The blocks around the cursor. -/
theorem Rep.split (h : Rep G bs b w) (hne : b.blocks ≠ []) :
    ∃ done blk rest, b.blocks = done ++ blk :: rest ∧ done.length = b.readBlock ∧
      b.readPos ≤ blk.length := by
  obtain ⟨blk, hblk, hpos⟩ := h.cursor hne
  obtain ⟨hlt, hget⟩ := List.getElem?_eq_some_iff.mp hblk
  refine ⟨b.blocks.take b.readBlock, blk, b.blocks.drop (b.readBlock + 1), ?_, ?_, hpos⟩
  · rw [← hget, ← List.drop_eq_getElem_cons hlt, List.take_append_drop]
  · rw [List.length_take]
    omega

/-- A buffer read from its blocks: done ones, and those from the cursor
on. -/
theorem rep_of_split (done live : List Bytes) (hblock : b.blockSize = bs)
    (hblocks : b.blocks = done ++ live) (hdone : done.length = b.readBlock)
    (hgood : ∀ blk ∈ b.blocks, G blk.length)
    (hpos : b.readPos ≤ (live.headD []).length) (hnil : live = [] → done = [])
    (htotal : b.totalSize = (live.flatten.drop b.readPos).length) :
    Rep G bs b (live.flatten.drop b.readPos) := by
  have hunread : b.unread = live.flatten.drop b.readPos := by
    rw [ChainBuffer.unread, hblocks, ← hdone, List.drop_left]
  refine ⟨hblock, hunread, htotal, hgood, ?_, ?_⟩
  · intro h0
    rw [hblocks, List.append_eq_nil_iff] at h0
    rw [h0.2] at hpos
    refine ⟨?_, by simpa using hpos⟩
    rw [← hdone, h0.1, List.length_nil]
  · intro hne
    cases live with
    | nil => exact absurd (by rw [hblocks, hnil rfl, List.append_nil]) hne
    | cons blk rest =>
      refine ⟨blk, ?_, by simpa using hpos⟩
      rw [hblocks, ← hdone, List.getElem?_append_right (Nat.le_refl _), Nat.sub_self]
      rfl

/-! ## Appending -/

/-- After `withRoom` there is a last block, and it is not full. -/
theorem withRoom_spec (hg : Grows sub bs G) (h : Rep G bs b w) :
    Rep G bs b.withRoom w ∧
      ∃ front back, b.withRoom.blocks = front ++ [back] ∧ back.length ≠ bs := by
  have hpos := hg.pos
  have hzero : ([] : Bytes).length ≠ bs := by simp; omega
  unfold withRoom
  cases hlast : b.blocks.getLast? with
  | none =>
    have hnil := List.getLast?_eq_none_iff.mp hlast
    obtain ⟨hrb, hrp⟩ := h.nil hnil
    have hw : w = [] := by rw [← h.unread, ChainBuffer.unread, hnil]; simp
    refine ⟨⟨h.block, ?_, h.total, ?_, ?_, ?_⟩, [], [], rfl, hzero⟩
    · simp [ChainBuffer.unread, hrb, hw]
    · simpa using hg.zero
    · intro h0; cases h0
    · exact fun _ => ⟨[], by simp [hrb], by simp [hrp]⟩
  | some back =>
    obtain ⟨front, hfront⟩ := List.getLast?_eq_some_iff.mp hlast
    dsimp only
    by_cases hfull : back.length = b.blockSize
    · rw [if_pos hfull]
      have hne : b.blocks ≠ [] := by rw [hfront]; simp
      obtain ⟨blk, hblk, hp⟩ := h.cursor hne
      have hlt := (List.getElem?_eq_some_iff.mp hblk).1
      refine ⟨⟨h.block, ?_, h.total, ?_, ?_, ?_⟩, b.blocks, [], rfl, hzero⟩
      · rw [← h.unread, ChainBuffer.unread, ChainBuffer.unread]
        simp only [List.drop_append_of_le_length (Nat.le_of_lt hlt), List.flatten_append]
        simp
      · intro blk' hmem
        rcases List.mem_append.mp hmem with hm | hm
        · exact h.good blk' hm
        · rw [List.mem_singleton.mp hm]; exact hg.zero
      · intro h0; simp at h0
      · exact fun _ => ⟨blk, by rw [List.getElem?_append_left hlt]; exact hblk, hp⟩
    · rw [if_neg hfull]
      exact ⟨h, front, back, hfront, by rwa [h.block] at hfull⟩

/-- Bytes put after the last block are put after what the buffer holds. -/
theorem push_spec (h : Rep G bs b w) {front : List Bytes} {back : Bytes} (chunk : Bytes)
    (hblocks : b.blocks = front ++ [back]) (hgood : G (back ++ chunk).length) :
    Rep G bs { b with blocks := front ++ [back ++ chunk], totalSize := b.totalSize + chunk.length }
      (w ++ chunk) := by
  have hne : b.blocks ≠ [] := by rw [hblocks]; simp
  obtain ⟨blk, hblk, hp⟩ := h.cursor hne
  have hlt := (List.getElem?_eq_some_iff.mp hblk).1
  rw [hblocks, List.length_append, List.length_singleton] at hlt
  have hle : b.readBlock ≤ front.length := by omega
  -- the cursor stays inside the blocks that were there
  have hposle : b.readPos ≤ ((front.drop b.readBlock) ++ [back]).flatten.length := by
    rw [← List.drop_append_of_le_length hle, ← hblocks]
    have hcons : b.blocks.drop b.readBlock = blk :: b.blocks.drop (b.readBlock + 1) := by
      obtain ⟨hlt', hget⟩ := List.getElem?_eq_some_iff.mp hblk
      rw [← hget, ← List.drop_eq_getElem_cons hlt']
    rw [hcons, List.flatten_cons, List.length_append]
    omega
  refine ⟨h.block, ?_, ?_, ?_, ?_, ?_⟩
  · rw [← h.unread, ChainBuffer.unread, ChainBuffer.unread]
    simp only [hblocks]
    rw [List.drop_append_of_le_length hle, List.drop_append_of_le_length hle]
    have hflat : (front.drop b.readBlock ++ [back ++ chunk]).flatten
        = (front.drop b.readBlock ++ [back]).flatten ++ chunk := by simp
    rw [hflat, List.drop_append_of_le_length hposle]
  · simp [h.total]
  · intro blk' hmem
    rcases List.mem_append.mp hmem with hm | hm
    · exact h.good blk' (by rw [hblocks]; exact List.mem_append_left _ hm)
    · rw [List.mem_singleton.mp hm]; exact hgood
  · intro h0; simp at h0
  · intro _
    by_cases heq : b.readBlock = front.length
    · refine ⟨back ++ chunk, ?_, ?_⟩
      · simp only [heq, List.getElem?_append_right (Nat.le_refl _), Nat.sub_self]
        rfl
      · rw [hblocks, heq, List.getElem?_append_right (Nat.le_refl _), Nat.sub_self] at hblk
        cases hblk
        rw [List.length_append]
        exact Nat.le_trans hp (Nat.le_add_right _ _)
    · have hlt' : b.readBlock < front.length := by omega
      refine ⟨blk, ?_, hp⟩
      rw [hblocks, List.getElem?_append_left hlt'] at hblk
      simp only [List.getElem?_append_left hlt']
      exact hblk

/-- **Appending** puts the data after what the buffer holds, or outgrows a
block. -/
theorem appendLoop_spec (hg : Grows sub bs G) (fuel : Nat) :
    ∀ {b : ChainBuffer} {w p : Bytes}, Rep G bs b w → p.length < fuel →
      (∃ b', appendLoop sub fuel b p = .ok b' ∧ Rep G bs b' (w ++ p)) ∨
      (appendLoop sub fuel b p = .error .lengthError ∧ Outgrows sub bs G) := by
  induction fuel with
  | zero => intro b w p _ hf; omega
  | succ fuel ih =>
    intro b w p h hf
    by_cases hp : p.length > 0
    · obtain ⟨hroom, front, back, hblocks, hnfull⟩ := withRoom_spec hg h
      have hback : G back.length := hroom.good back (by rw [hblocks]; simp)
      obtain ⟨k, hk1, hsub, hgrow⟩ := hg.space back.length hback hnfull
      have hlast : b.withRoom.blocks.getLast? = some back := by rw [hblocks]; simp
      have hdrop : b.withRoom.blocks.dropLast = front := by rw [hblocks]; simp
      have hrun : appendLoop sub (fuel + 1) b p
          = if back.length + min k p.length ≤ maxSize then
              appendLoop sub fuel { b.withRoom with
                blocks := front ++ [back ++ p.take (min k p.length)],
                totalSize := b.withRoom.totalSize + min k p.length } (p.drop (min k p.length))
            else .error .lengthError := by
        simp only [appendLoop, if_pos hp, hlast, hroom.block, hsub, hdrop]
        rfl
      have hlen : (p.take (min k p.length)).length = min k p.length := by
        rw [List.length_take]; omega
      by_cases hfits : back.length + min k p.length ≤ maxSize
      · have hpush := push_spec hroom (p.take (min k p.length)) hblocks (by
          rw [List.length_append, hlen]
          exact hgrow _ (Nat.min_le_left _ _) hfits)
        rw [hlen] at hpush
        rw [hrun, if_pos hfits]
        have := ih (p := p.drop (min k p.length)) hpush (by rw [List.length_drop]; omega)
        rwa [List.append_assoc, List.take_append_drop] at this
      · refine .inr ⟨by rw [hrun, if_neg hfits], back.length, k, hback, hsub, ?_⟩
        omega
    · have hnil : p = [] := List.length_eq_zero_iff.mp (by omega)
      refine .inl ⟨b, ?_, by rw [hnil, List.append_nil]; exact h⟩
      rw [appendLoop, if_neg hp]

/-! ## Reading -/

section Read

variable {len copied idx pos fuel : Nat} {out blk : Bytes}

/-- Nothing left to copy, or nothing left to copy from. -/
theorem readLoop_exit (h : len = 0 ∨ b.blocks.length ≤ idx) :
    readLoop sub b (fuel + 1) len copied idx pos out = .ok (copied, out) := by
  rw [readLoop, if_neg (by omega)]

/-- The end of a block. -/
theorem readLoop_skip (hlen : 0 < len) (hblk : b.blocks[idx]? = some blk) (hpos : blk.length ≤ pos) :
    readLoop sub b (fuel + 1) len copied idx pos out
      = readLoop sub b fuel len copied (idx + 1) 0 out := by
  have hlt := (List.getElem?_eq_some_iff.mp hblk).1
  rw [readLoop, if_pos ⟨hlen, hlt⟩, hblk]
  exact if_pos hpos

/-- A copy out of a block. -/
theorem readLoop_copy (hsub : Exact sub) (hlen : 0 < len) (hblk : b.blocks[idx]? = some blk)
    (hsize : blk.length ≤ maxSize) (hpos : pos < blk.length) :
    readLoop sub b (fuel + 1) len copied idx pos out
      = readLoop sub b fuel (len - min (blk.length - pos) len)
          (copied + min (blk.length - pos) len) idx (pos + min (blk.length - pos) len)
          (out ++ (blk.drop pos).take len) := by
  have hlt := (List.getElem?_eq_some_iff.mp hblk).1
  have hmax : maxSize < 2 ^ 64 := by decide
  have havail := hsub blk.length pos (Nat.le_of_lt hpos) (by omega)
  have hread : readN blk pos (min (blk.length - pos) len) = some ((blk.drop pos).take len) := by
    rw [readN, if_pos (by omega), ← List.length_drop, Nat.min_comm, ← List.take_take,
      List.take_length]
  rw [readLoop, if_pos ⟨hlen, hlt⟩, hblk]
  dsimp only
  rw [if_neg (by omega), havail]
  simp only [bind, Except.bind, hread]

end Read

/-- **Reading**, by induction on the blocks from the cursor on: a block is
left by a copy that empties it and a step to the next. -/
theorem readLoop_spec (hsub : Exact sub) (hgood : ∀ blk ∈ b.blocks, blk.length ≤ maxSize)
    (live : List Bytes) :
    ∀ {done : List Bytes} {len copied pos fuel : Nat} {out : Bytes}, b.blocks = done ++ live →
      pos ≤ (live.headD []).length → 2 * live.length < fuel →
      readLoop sub b fuel len copied done.length pos out
        = .ok (copied + min len (live.flatten.drop pos).length,
            out ++ (live.flatten.drop pos).take len) := by
  induction live with
  | nil =>
    intro done len copied pos fuel out hblocks _ hf
    obtain ⟨fuel, rfl⟩ : ∃ f, fuel = f + 1 := ⟨fuel - 1, by omega⟩
    rw [readLoop_exit (.inr (by rw [hblocks, List.append_nil]))]
    simp
  | cons blk rest ih =>
    intro done len copied pos fuel out hblocks hpos hf
    rw [List.length_cons] at hf
    obtain ⟨fuel, rfl⟩ : ∃ f, fuel = f + 2 := ⟨fuel - 2, by omega⟩
    have hblk : b.blocks[done.length]? = some blk := by simp [hblocks]
    have hsize := hgood blk (by rw [hblocks]; simp)
    have hpos' : pos ≤ blk.length := hpos
    have hnext : b.blocks = (done ++ [blk]) ++ rest := by simp [hblocks]
    have hdone : done.length + 1 = (done ++ [blk]).length := by simp
    rcases Nat.eq_zero_or_pos len with rfl | hlen
    · rw [readLoop_exit (.inl rfl)]
      simp
    rw [List.flatten_cons, List.drop_append_of_le_length hpos']
    by_cases hend : blk.length ≤ pos
    · rw [readLoop_skip hlen hblk hend, hdone, ih hnext (Nat.zero_le _) (by omega),
        List.drop_eq_nil_of_le hend, List.nil_append, List.drop_zero]
    · rw [readLoop_copy hsub hlen hblk hsize (by omega)]
      have hlenDrop : (blk.drop pos).length = blk.length - pos := List.length_drop
      by_cases hle : len ≤ blk.length - pos
      · -- the block has all that is asked for
        rw [readLoop_exit (.inl (by omega)), List.take_append_of_le_length (by omega),
          List.length_append]
        congr 2
        omega
      · rw [readLoop_skip (by omega) hblk (by omega), hdone, ih hnext (Nat.zero_le _) (by omega),
          List.drop_zero, List.append_assoc, List.length_append, List.take_append,
          List.take_of_length_le (l := blk.drop pos) (by omega), hlenDrop]
        have hmin : min (blk.length - pos) len = blk.length - pos := by omega
        rw [hmin]
        congr 2
        omega

/-- **`read`** gives the first bytes of what the buffer holds. -/
theorem read_spec (hsub : Exact sub) (hG : ∀ m, G m → m ≤ maxSize) (h : Rep G bs b w) (len : Nat) :
    read sub b len = .ok (min len w.length, w.take len) := by
  have hgood : ∀ blk ∈ b.blocks, blk.length ≤ maxSize := fun blk hm => hG _ (h.good blk hm)
  unfold read
  by_cases hne : b.blocks = []
  · have hw : w = [] := by rw [← h.unread, ChainBuffer.unread, hne]; simp
    rw [readLoop_exit (.inr (by rw [hne]; simp)), hw]
    simp
  · obtain ⟨done, blk, rest, hblocks, hdone, hpos⟩ := h.split hne
    have hw : (blk :: rest).flatten.drop b.readPos = w := by
      rw [← h.unread, ChainBuffer.unread, hblocks, ← hdone, List.drop_left]
    rw [← hdone, readLoop_spec hsub hgood (blk :: rest) hblocks hpos (by
      rw [hblocks, List.length_append]; omega), hw]
    simp

/-! ## Consuming -/

/-- Leaving the loop with nothing more to consume erases the blocks that
are done. -/
theorem consumeLoop_exit (done live : List Bytes) (consumed fuel : Nat) (hblock : b.blockSize = bs)
    (hblocks : b.blocks = done ++ live) (hdone : done.length = b.readBlock)
    (hgood : ∀ blk ∈ b.blocks, G blk.length) (hpos : b.readPos ≤ (live.headD []).length)
    (htotal : b.totalSize = (live.flatten.drop b.readPos).length) :
    ∃ b', consumeLoop sub (fuel + 1) b 0 consumed = .ok (b', consumed) ∧
      Rep G bs b' (live.flatten.drop b.readPos) := by
  rw [consumeLoop, if_neg (by omega)]
  by_cases hrb : b.readBlock > 0
  · have hle : b.readBlock ≤ b.blocks.length := by rw [hblocks, List.length_append]; omega
    have hdrop : b.blocks.drop b.readBlock = live := by rw [hblocks, ← hdone, List.drop_left]
    rw [if_pos hrb, if_pos hle, hdrop]
    refine ⟨_, rfl, rep_of_split [] live hblock rfl rfl ?_ hpos (fun _ => rfl) htotal⟩
    exact fun blk hm => hgood blk (by rw [hblocks]; exact List.mem_append_right _ hm)
  · have hnil : done = [] := List.length_eq_zero_iff.mp (by omega)
    rw [if_neg hrb]
    exact ⟨b, rfl, rep_of_split done live hblock hblocks hdone hgood hpos (fun _ => hnil) htotal⟩

/-- One block of the loop. -/
theorem consumeLoop_block (hsub : Exact sub) (hlen : 0 < len) (consumed : Nat)
    (hblk : b.blocks[b.readBlock]? = some blk) (hpos : b.readPos ≤ blk.length)
    (hsize : blk.length ≤ maxSize) :
    consumeLoop sub (fuel + 1) b len consumed
      = if len < blk.length - b.readPos then
          .ok ({ b with readPos := b.readPos + len, totalSize := b.totalSize - len }, consumed + len)
        else consumeLoop sub fuel
          { b with totalSize := b.totalSize - (blk.length - b.readPos),
                   readBlock := b.readBlock + 1, readPos := 0 }
          (len - (blk.length - b.readPos)) (consumed + (blk.length - b.readPos)) := by
  have hne : b.blocks ≠ [] := by
    intro hnil
    rw [hnil] at hblk
    cases hblk
  have hmax : maxSize < 2 ^ 64 := by decide
  have havail := hsub blk.length b.readPos hpos (by omega)
  rw [consumeLoop, if_pos ⟨hlen, hne⟩, hblk]
  simp only [bind, Except.bind, havail]

/-- **Consuming**, by induction on the blocks from the cursor on. -/
theorem consumeLoop_spec (hsub : Exact sub) (hG : ∀ m, G m → m ≤ maxSize) (live : List Bytes) :
    ∀ (b : ChainBuffer) (done : List Bytes) (len consumed fuel : Nat), b.blockSize = bs →
      b.blocks = done ++ live → done.length = b.readBlock → (∀ blk ∈ b.blocks, G blk.length) →
      b.readPos ≤ (live.headD []).length → len ≤ (live.flatten.drop b.readPos).length →
      b.totalSize = (live.flatten.drop b.readPos).length → live.length < fuel →
      ∃ b', consumeLoop sub fuel b len consumed = .ok (b', consumed + len) ∧
        Rep G bs b' ((live.flatten.drop b.readPos).drop len) := by
  induction live with
  | nil =>
    intro b done len consumed fuel hblock hblocks hdone hgood hpos hlen htotal hf
    obtain ⟨fuel, rfl⟩ : ∃ f, fuel = f + 1 := ⟨fuel - 1, by omega⟩
    have h0 : len = 0 := by simpa using hlen
    subst h0
    exact consumeLoop_exit done [] consumed fuel hblock hblocks hdone hgood hpos htotal
  | cons blk rest ih =>
    intro b done len consumed fuel hblock hblocks hdone hgood hpos hlen htotal hf
    obtain ⟨fuel, rfl⟩ : ∃ f, fuel = f + 1 := ⟨fuel - 1, by omega⟩
    rcases Nat.eq_zero_or_pos len with rfl | hlen0
    · exact consumeLoop_exit done (blk :: rest) consumed fuel hblock hblocks hdone hgood hpos htotal
    have hpos' : b.readPos ≤ blk.length := hpos
    have hblk : b.blocks[b.readBlock]? = some blk := by rw [hblocks, ← hdone]; simp
    have hsize : blk.length ≤ maxSize := hG _ (hgood blk (by rw [hblocks]; simp))
    have hflat : (blk :: rest).flatten.drop b.readPos = blk.drop b.readPos ++ rest.flatten := by
      rw [List.flatten_cons, List.drop_append_of_le_length hpos']
    have hlenDrop : (blk.drop b.readPos).length = blk.length - b.readPos := List.length_drop
    rw [hflat, List.length_append, hlenDrop] at hlen htotal
    rw [consumeLoop_block hsub hlen0 consumed hblk hpos' hsize, hflat]
    by_cases hlt : len < blk.length - b.readPos
    · -- the return from inside the loop
      rw [if_pos hlt]
      refine ⟨_, rfl, ?_⟩
      rw [← hflat, List.drop_drop]
      refine rep_of_split done _ hblock hblocks hdone hgood ?_ (fun h => by cases h) ?_
      · simp only [List.headD_cons]; omega
      · simp only [← List.drop_drop, hflat, List.length_drop, List.length_append]
        omega
    · rw [if_neg hlt]
      obtain ⟨b', hb', hrep⟩ := ih
        { b with totalSize := b.totalSize - (blk.length - b.readPos),
                 readBlock := b.readBlock + 1, readPos := 0 }
        (done ++ [blk]) (len - (blk.length - b.readPos)) (consumed + (blk.length - b.readPos)) fuel
        hblock (by simp [hblocks]) (by simp [hdone]) hgood (Nat.zero_le _)
        (by rw [List.drop_zero]; omega) (by simp only [List.drop_zero]; omega)
        (by rw [List.length_cons] at hf; omega)
      refine ⟨b', ?_, ?_⟩
      · rw [hb']
        congr 2
        omega
      · rw [List.drop_append, List.drop_eq_nil_of_le (by omega), hlenDrop, List.nil_append]
        simpa using hrep

/-- **`consume`** drops the first bytes of what the buffer holds. -/
theorem consume_spec (hsub : Exact sub) (hG : ∀ m, G m → m ≤ maxSize) (h : Rep G bs b w)
    (len : Nat) :
    ∃ b', consume sub b len = .ok (b', min len w.length) ∧ Rep G bs b' (w.drop len) := by
  have hmin : (if len < b.totalSize then len else b.totalSize) = min len w.length := by
    rw [h.total]
    split <;> omega
  have hdropmin : w.drop (min len w.length) = w.drop len := by
    by_cases hle : len ≤ w.length
    · rw [Nat.min_eq_left hle]
    · rw [Nat.min_eq_right (by omega), List.drop_length, List.drop_eq_nil_of_le (by omega)]
  obtain ⟨done, live, hblocks, hdone, hpos, hw⟩ : ∃ done live, b.blocks = done ++ live ∧
      done.length = b.readBlock ∧ b.readPos ≤ (live.headD []).length ∧
      live.flatten.drop b.readPos = w := by
    by_cases hne : b.blocks = []
    · obtain ⟨hrb, hrp⟩ := h.nil hne
      refine ⟨[], [], by simp [hne], hrb.symm, by simp [hrp], ?_⟩
      rw [← h.unread, ChainBuffer.unread, hne]
      simp
    · obtain ⟨done, blk, rest, hblocks, hdone, hpos⟩ := h.split hne
      refine ⟨done, blk :: rest, hblocks, hdone, hpos, ?_⟩
      rw [← h.unread, ChainBuffer.unread, hblocks, ← hdone, List.drop_left]
  obtain ⟨b', hb', hrep⟩ := consumeLoop_spec hsub hG live b done (min len w.length) 0
    (b.blocks.length + 1) h.block hblocks hdone h.good hpos
    (by rw [hw]; exact Nat.min_le_right _ _) (by rw [hw]; exact h.total)
    (by rw [hblocks, List.length_append]; omega)
  refine ⟨b', ?_, ?_⟩
  · rw [consume, hmin, hb', Nat.zero_add]
  · rwa [hw, hdropmin] at hrep

/-! ## Runs on one buffer -/

/-- A new buffer holds nothing. -/
theorem rep_new (hzero : G 0) {b₀ : ChainBuffer} (hnew : new bs = .ok b₀) : Rep G bs b₀ [] := by
  unfold new at hnew
  split at hnew
  · cases hnew
    refine rep_of_split [] [[]] rfl rfl rfl ?_ (Nat.le_refl _)
      (fun _ => rfl) rfl
    simpa using hzero
  · cases hnew

theorem rep_clear (hzero : G 0) (h : Rep G bs b w) : Rep G bs b.clear [] := by
  refine rep_of_split [] [[]] h.block rfl rfl ?_ (Nat.le_refl _)
    (fun _ => rfl) rfl
  simpa [clear] using hzero

/-- **One call** answers as the queue does, or outgrows a block. -/
theorem exec_spec (hsub : Exact sub) (hg : Grows sub bs G) (h : Rep G bs b w) (op : Op) :
    (∃ b', exec sub b op = .ok (b', (Queue.step w op).2) ∧ Rep G bs b' (Queue.step w op).1) ∨
    (exec sub b op = .error .lengthError ∧ Outgrows sub bs G) := by
  cases op with
  | append data =>
    rcases appendLoop_spec hg (data.length + 1) h (Nat.lt_succ_self _) with
      ⟨b', hb', hrep⟩ | ⟨herr, hout⟩
    · exact .inl ⟨b', by rw [exec, append, hb']; rfl, hrep⟩
    · exact .inr ⟨by rw [exec, append, herr]; rfl, hout⟩
  | read len =>
    exact .inl ⟨b, by rw [exec, read_spec hsub hg.le h len]; rfl, h⟩
  | consume len =>
    obtain ⟨b', hb', hrep⟩ := consume_spec hsub hg.le h len
    exact .inl ⟨b', by rw [exec, hb']; rfl, hrep⟩
  | clear => exact .inl ⟨b.clear, rfl, rep_clear hg.zero h⟩

/-- Blocks that hold `_block_size` at most stay so. -/
theorem grows_blockSize (hsub : Exact sub) (hpos : 1 ≤ bs) (hmax : bs ≤ maxSize) :
    Grows sub bs (· ≤ bs) := by
  have hlt : maxSize < 2 ^ 64 := by decide
  refine ⟨hpos, Nat.zero_le _, fun m hm => Nat.le_trans hm hmax, fun m hm hne => ?_⟩
  refine ⟨bs - m, ?_, hsub bs m hm (by omega), fun j hj _ => ?_⟩
  · have hm' : m ≤ bs := hm
    omega
  · have hm' : m ≤ bs := hm
    show m + j ≤ bs
    omega

/-- They never outgrow a vector. -/
theorem not_outgrows (hsub : Exact sub) (hmax : bs ≤ maxSize) : ¬ Outgrows sub bs (· ≤ bs) := by
  rintro ⟨m, k, hm, hk, hbig⟩
  have hlt : maxSize < 2 ^ 64 := by decide
  have hm' : m ≤ bs := hm
  rw [hsub bs m hm' (by omega)] at hk
  cases hk
  omega

/-- **A chain buffer is a byte queue.** For every block size the
constructor takes and every run of calls, with the subtraction of the
machine and with one that fails below zero alike: no call fails, the
answers are the queue's, `size()` is the length of what the queue holds,
and `read` and `consume` give what it gives. -/
theorem run_queue (hpos : 1 ≤ bs) {b₀ : ChainBuffer} (hnew : new bs = .ok b₀) (ops : List Op)
    (hsub : sub = wrapSub ∨ sub = trapSub .underflow) :
    ∃ b w, runAll (exec sub) b₀ ops = .ok (b, (specAll Queue.step [] ops).2) ∧
      (specAll Queue.step [] ops).1 = w ∧ b.size = w.length ∧
      (∀ n, read sub b n = .ok (min n w.length, w.take n)) ∧
      ∀ n, ∃ b', consume sub b n = .ok (b', min n w.length) ∧ b'.size = (w.drop n).length ∧
        ∀ m, read sub b' m = .ok (min m (w.drop n).length, (w.drop n).take m) := by
  have hexact : Exact sub := by
    rcases hsub with rfl | rfl
    · exact wrapSub_exact
    · exact trapSub_exact _
  have hmax : bs ≤ maxSize := by
    by_contra h
    rw [new, if_neg h] at hnew
    cases hnew
  have hg := grows_blockSize hexact hpos hmax
  have hstep : ∀ (b : ChainBuffer) (w : Bytes) (op : Op), Rep (· ≤ bs) bs b w →
      ∃ b', exec sub b op = .ok (b', (Queue.step w op).2) ∧
        Rep (· ≤ bs) bs b' (Queue.step w op).1 := by
    intro b w op h
    rcases exec_spec hexact hg h op with h | ⟨-, hout⟩
    · exact h
    · exact absurd hout (not_outgrows hexact hmax)
  obtain ⟨b, hrun, hrep⟩ := runAll_refines hstep ops (rep_new (Nat.zero_le bs) hnew)
  refine ⟨b, _, hrun, rfl, hrep.total, fun n => read_spec hexact hg.le hrep n, fun n => ?_⟩
  obtain ⟨b', hb', hrep'⟩ := consume_spec hexact hg.le hrep n
  exact ⟨b', hb', hrep'.total, fun m => read_spec hexact hg.le hrep' m⟩

/-- Blocks of two bytes: six bytes in, three out, which stops in the
middle of the second block. -/
theorem run_queue_six :
    ∃ b w, runAll (exec (trapSub .underflow)) ⟨2, [[]], 0, 0, 0⟩
        [.append [1, 2, 3, 4, 5, 6], .consume 3, .read 2]
        = .ok (b, (specAll Queue.step [] [.append [1, 2, 3, 4, 5, 6], .consume 3, .read 2]).2) ∧
      (specAll Queue.step [] [.append [1, 2, 3, 4, 5, 6], .consume 3, .read 2]).1 = w ∧
      b.size = w.length ∧
      (∀ n, read (trapSub .underflow) b n = .ok (min n w.length, w.take n)) ∧
      ∀ n, ∃ b', consume (trapSub .underflow) b n = .ok (b', min n w.length) ∧
        b'.size = (w.drop n).length ∧
        ∀ m, read (trapSub .underflow) b' m = .ok (min m (w.drop n).length, (w.drop n).take m) :=
  @run_queue 2 (trapSub .underflow) (by decide) _ rfl _ (.inr rfl)

/-! ## Splicing two buffers -/

/-- The bytes before the cursor that are still in the blocks. -/
def passed (b : ChainBuffer) : Bytes :=
  (b.blocks.take b.readBlock).flatten ++ (b.blocks.drop b.readBlock).flatten.take b.readPos

theorem passed_unread (b : ChainBuffer) : b.passed ++ b.unread = b.blocks.flatten := by
  rw [passed, unread, List.append_assoc, List.take_append_drop, ← List.flatten_append,
    List.take_append_drop]

/-- `append(other)` takes the blocks of the other buffer over. -/
def Steals (b : ChainBuffer) : Prop := b.readBlock = 0 ∧ b.readPos = 0 ∧ b.blocks = [[]]

instance (b : ChainBuffer) : Decidable b.Steals := inferInstanceAs (Decidable (_ ∧ _ ∧ _))

/-- Where splicing is right: nothing to splice, or blocks that can be
taken over as they are. -/
def Sound (b other : ChainBuffer) : Prop :=
  other.totalSize = 0 ∨ (b.Steals ∧ other.passed = [])

instance (b other : ChainBuffer) : Decidable (b.Sound other) :=
  inferInstanceAs (Decidable (_ ∨ (_ ∧ _)))

variable {other : ChainBuffer} {bs' : Nat} {v : Bytes}

/-- A buffer that steals holds nothing. -/
theorem Rep.nil_of_steals (h : Rep G bs b w) (hs : b.Steals) : w = [] := by
  obtain ⟨hrb, hrp, hblocks⟩ := hs
  rw [← h.unread, ChainBuffer.unread, hrb, hrp, hblocks]
  rfl

/-- What taking the blocks over leaves: all their bytes, consumed ones
too. -/
theorem steal_eq (hne : other.totalSize ≠ 0) (hs : b.Steals) :
    appendBuffer sub b other = .ok
      ({ b with blocks := other.blocks, totalSize := b.totalSize + other.totalSize },
        other.clear) := by
  have hempty : ¬ other.empty = true := by simpa [empty] using hne
  have hblocks : appendBlocks sub b other = .ok { b with blocks := other.blocks } := if_pos hs
  rw [appendBuffer, if_neg hempty, hblocks]
  rfl

/-- **Splicing, where it is right.** -/
theorem appendBuffer_spec (sub : Nat → Nat → Except Error Nat) (h : Rep G bs b w)
    (h' : Rep G bs' other v) (hzero : G 0) (hs : b.Sound other) :
    ∃ b' other', appendBuffer sub b other = .ok (b', other') ∧ Rep G bs b' (w ++ v) ∧
      Rep G bs' other' [] := by
  by_cases hempty : other.totalSize = 0
  · have hv : v = [] := List.length_eq_zero_iff.mp (by rw [← h'.total, hempty])
    subst hv
    refine ⟨b, other, ?_, by rw [List.append_nil]; exact h, h'⟩
    rw [appendBuffer, if_pos (by simp [empty, hempty])]
  · obtain ⟨hsteal, hpassed⟩ := hs.resolve_left hempty
    have hw := h.nil_of_steals hsteal
    have htotal := h.total
    subst hw
    refine ⟨_, _, steal_eq hempty hsteal, ?_, rep_clear hzero h'⟩
    obtain ⟨hrb, hrp, -⟩ := hsteal
    have hflat : other.blocks.flatten = v := by
      rw [← passed_unread, hpassed, List.nil_append, h'.unread]
    have hne : other.blocks ≠ [] := by
      intro h0
      rw [h0] at hflat
      rw [h'.total, ← hflat] at hempty
      exact hempty rfl
    refine ⟨h.block, ?_, ?_, h'.good, fun h0 => absurd h0 hne, fun _ => ?_⟩
    · simp [ChainBuffer.unread, hrb, hrp, hflat]
    · simp [htotal, h'.total]
    · obtain ⟨blk, rest, hcons⟩ := List.exists_cons_of_ne_nil hne
      exact ⟨blk, by simp [hrb, hcons], by simp [hrp]⟩

/-- Copying block by block appends all their bytes. -/
theorem foldlM_append_spec (hg : Grows sub bs G) (blks : List Bytes) :
    ∀ {b b' : ChainBuffer} {w : Bytes}, Rep G bs b w →
      blks.foldlM (fun b blk => if blk.isEmpty then .ok b else append sub b blk) b = .ok b' →
      Rep G bs b' (w ++ blks.flatten) := by
  induction blks with
  | nil =>
    intro b b' w h hrun
    cases hrun
    simpa using h
  | cons blk blks ih =>
    intro b b' w h hrun
    rw [List.foldlM_cons] at hrun
    by_cases hblk : blk = []
    · subst hblk
      exact ih h hrun
    · have hne : ¬ blk.isEmpty = true := by simpa using hblk
      rw [if_neg hne] at hrun
      rcases appendLoop_spec hg (blk.length + 1) h (Nat.lt_succ_self _) with
        ⟨b₁, hb₁, h₁⟩ | ⟨herr, -⟩
      · rw [append, hb₁] at hrun
        have := ih h₁ hrun
        rwa [List.append_assoc, ← List.flatten_cons] at this
      · rw [append, herr] at hrun
        cases hrun

/-- **Splicing is right exactly there.** A splice that does not fail leaves
what the two buffers held, one after the other, if and only if it is one
of the sound ones. -/
theorem appendBuffer_iff (hg : Grows sub bs G) (h : Rep G bs b w) (h' : Rep G bs' other v)
    {b' other' : ChainBuffer} (hrun : appendBuffer sub b other = .ok (b', other')) :
    Rep G bs b' (w ++ v) ↔ b.Sound other := by
  constructor
  · intro hrep
    by_contra hsound
    have hempty : other.totalSize ≠ 0 := fun h0 => hsound (.inl h0)
    by_cases hsteal : b.Steals
    · -- the consumed bytes are back
      have hw := h.nil_of_steals hsteal
      rw [steal_eq hempty hsteal] at hrun
      cases hrun
      refine hsound (.inr ⟨hsteal, ?_⟩)
      have hun := hrep.unread
      obtain ⟨hrb, hrp, -⟩ := hsteal
      simp only [ChainBuffer.unread, hrb, hrp, List.drop_zero, hw, List.nil_append] at hun
      have hlen := congrArg List.length (passed_unread other)
      rw [h'.unread, hun, List.length_append] at hlen
      exact List.length_eq_zero_iff.mp (by omega)
    · -- every byte of the blocks is counted, and those unread once more
      have hne : ¬ other.empty = true := by simpa [empty] using hempty
      have hblocks : appendBlocks sub b other = _ := if_neg hsteal
      rw [appendBuffer, if_neg hne, hblocks] at hrun
      cases hfold : other.blocks.foldlM
          (fun b blk => if blk.isEmpty then .ok b else append sub b blk) b with
      | error e => rw [hfold] at hrun; cases hrun
      | ok b₁ =>
        rw [hfold] at hrun
        cases hrun
        have h₁ := (foldlM_append_spec hg other.blocks h hfold).total
        have htotal := hrep.total
        have hlen := congrArg List.length (passed_unread other)
        rw [h'.unread] at hlen
        have hv := h'.total
        simp only [List.length_append] at h₁ htotal hlen
        omega
  · intro hs
    obtain ⟨b₁, other₁, hrun₁, hrep, -⟩ := appendBuffer_spec sub h h' hg.zero hs
    cases hrun.symm.trans hrun₁
    exact hrep

/-! ## Runs on several buffers -/

section Store

variable {ι : Type} [DecidableEq ι]

/-- A splice of two different buffers, and a sound one. -/
def Allowed (s : ι → ChainBuffer) : Act ι → Prop
  | .call _ _ => True
  | .splice i j => i ≠ j ∧ (s i).Sound (s j)

/-- Buffers of any block sizes, and the calls and sound splices on them,
each with its answer. -/
def spliceLts : Lts (ι → ChainBuffer) (Act ι × Answer) where
  init s := ∀ i, ∃ bs, 1 ≤ bs ∧ new bs = .ok (s i)
  step s a s' := Allowed s a.1 ∧ execAct wrapSub s a.1 = .ok (s', a.2)

/-- Each buffer holds its string, in blocks of any size a vector has. -/
def Holds (s : ι → ChainBuffer) (w : ι → Bytes) : Prop :=
  ∀ i, ∃ bs, Grows wrapSub bs (· ≤ maxSize) ∧ Rep (· ≤ maxSize) bs (s i) (w i)

/-- With the machine's subtraction there is room in every block that is
not exactly full, also in one that is too large. -/
theorem grows_maxSize {bs : Nat} (hpos : 1 ≤ bs) (hmax : bs ≤ maxSize) :
    Grows wrapSub bs (· ≤ maxSize) := by
  have hlt : maxSize < 2 ^ 64 := by decide
  refine ⟨hpos, Nat.zero_le _, fun m hm => hm, fun m hm hne => ?_⟩
  have hm' : m ≤ maxSize := hm
  obtain ⟨k, hk, hsub⟩ := wrapSub_pos (ε := Error) (a := bs) (b := m) (by omega) (by omega) hne
  exact ⟨k, hk, hsub, fun j _ hj => hj⟩

omit [DecidableEq ι] in
theorem holds_init {s : ι → ChainBuffer} (h : ∀ i, ∃ bs, 1 ≤ bs ∧ new bs = .ok (s i)) :
    Holds s fun _ => [] := by
  intro i
  obtain ⟨bs, hpos, hnew⟩ := h i
  have hmax : bs ≤ maxSize := by
    by_contra hgt
    rw [new, if_neg hgt] at hnew
    cases hnew
  exact ⟨bs, grows_maxSize hpos hmax, rep_new (Nat.zero_le maxSize) hnew⟩

/-- Putting one buffer back. -/
theorem Holds.update {s : ι → ChainBuffer} {w : ι → Bytes} (h : Holds s w) (i : ι)
    {b : ChainBuffer} {x : Bytes}
    (hb : ∃ bs, Grows wrapSub bs (· ≤ maxSize) ∧ Rep (· ≤ maxSize) bs b x) :
    Holds (Function.update s i b) (Function.update w i x) := by
  intro k
  by_cases hk : k = i
  · subst hk
    simpa using hb
  · simpa [Function.update_of_ne hk] using h k

/-- **One step** answers as the queues do, or a vector refuses to grow. -/
theorem execAct_spec {s : ι → ChainBuffer} {w : ι → Bytes} (h : Holds s w) {act : Act ι}
    (ha : Allowed s act) :
    (∃ s', execAct wrapSub s act = .ok (s', (Queue.act w act).2) ∧ Holds s' (Queue.act w act).1) ∨
      execAct wrapSub s act = .error .lengthError := by
  cases act with
  | call i op =>
    obtain ⟨bs, hg, hrep⟩ := h i
    rcases exec_spec wrapSub_exact hg hrep op with ⟨b', hb', hrep'⟩ | ⟨herr, -⟩
    · exact .inl ⟨_, by rw [execAct, hb']; rfl, h.update i ⟨bs, hg, hrep'⟩⟩
    · exact .inr (by rw [execAct, herr]; rfl)
  | splice i j =>
    obtain ⟨hne, hsound⟩ := ha
    obtain ⟨bs, hg, hrep⟩ := h i
    obtain ⟨bs', hg', hrep'⟩ := h j
    obtain ⟨a, b, hrun, hra, hrb⟩ := appendBuffer_spec wrapSub hrep hrep' (Nat.zero_le _)
      hsound
    exact .inl ⟨_, by rw [execAct, hrun]; rfl,
      (h.update i ⟨bs, hg, hra⟩).update j ⟨bs', hg', hrb⟩⟩

/-- **Splices that are sound.** In every run whose splices are all sound,
the answers are those of byte queues, one spliced into the other by
concatenation; every buffer has the size of what its queue holds and
reads as that; and the next call or sound splice does not fail, but for a
vector that refuses to grow. -/
theorem run_splices {tr : List (Act ι × Answer)} {s : ι → ChainBuffer}
    (hrun : (spliceLts (ι := ι)).Run tr s) :
    let spec := specAll Queue.act (fun _ => []) (tr.map Prod.fst)
    tr.map Prod.snd = spec.2 ∧
      (∀ i, (s i).size = (spec.1 i).length ∧
        read wrapSub (s i) (s i).size = .ok ((spec.1 i).length, spec.1 i)) ∧
      ∀ act, Allowed s act →
        (∃ s', execAct wrapSub s act = .ok (s', (Queue.act spec.1 act).2)) ∨
          execAct wrapSub s act = .error .lengthError := by
  have hinv : tr.map Prod.snd = (specAll Queue.act (fun _ => []) (tr.map Prod.fst)).2 ∧
      Holds s (specAll Queue.act (fun _ => []) (tr.map Prod.fst)).1 := by
    refine Lts.Run.invariant (M := spliceLts) (I := fun tr s =>
      tr.map Prod.snd = (specAll Queue.act (fun _ => []) (tr.map Prod.fst)).2 ∧
        Holds s (specAll Queue.act (fun _ => []) (tr.map Prod.fst)).1) ?_ ?_ hrun
    · exact fun s hs => ⟨rfl, holds_init hs⟩
    · rintro tr s ⟨act, ans⟩ s' - ⟨hans, hholds⟩ ⟨hallowed, hexec⟩
      rw [List.map_append, List.map_append, specAll_append]
      rcases execAct_spec hholds hallowed with ⟨s₁, hs₁, h₁⟩ | herr
      · have heq := Except.ok.inj (hexec.symm.trans hs₁)
        have hs' : s' = s₁ := congrArg Prod.fst heq
        have hans' : ans = _ := congrArg Prod.snd heq
        refine ⟨?_, hs' ▸ h₁⟩
        rw [hans, hans']
        rfl
      · cases hexec.symm.trans herr
  obtain ⟨hans, hholds⟩ := hinv
  refine ⟨hans, fun i => ?_, fun act hallowed => ?_⟩
  · obtain ⟨bs, hg, hrep⟩ := hholds i
    refine ⟨hrep.total, ?_⟩
    rw [read_spec wrapSub_exact hg.le hrep, size, hrep.total, Nat.min_self, List.take_length]
  · rcases execAct_spec hholds hallowed with ⟨s', hs', -⟩ | herr
    · exact .inl ⟨s', hs'⟩
    · exact .inr herr

end Store

/-- "foo" and "bar": the spliced buffer says it holds nine bytes. -/
theorem not_splices_foo_bar :
    ∃ a b a' b' ra rb, runAll (exec wrapSub) ⟨4096, [[]], 0, 0, 0⟩ [.append [102, 111, 111]]
        = .ok (a, ra) ∧
      runAll (exec wrapSub) ⟨4096, [[]], 0, 0, 0⟩ [.append [98, 97, 114]] = .ok (b, rb) ∧
      appendBuffer wrapSub a b = .ok (a', b') ∧ a'.size ≠ a.size + b.size :=
  ⟨⟨4096, [[102, 111, 111]], 3, 0, 0⟩, ⟨4096, [[98, 97, 114]], 3, 0, 0⟩,
    ⟨4096, [[102, 111, 111, 98, 97, 114]], 9, 0, 0⟩, ⟨4096, [[]], 0, 0, 0⟩, [.unit], [.unit],
    by rfl, by rfl, by rfl, by decide⟩

/-- Two buffers, with blocks of two and of eight bytes; three bytes go
into the second and its blocks into the first. -/
def stealStart : Bool → ChainBuffer
  | false => ⟨2, [[]], 0, 0, 0⟩
  | true => ⟨8, [[]], 0, 0, 0⟩

def stealFull : Bool → ChainBuffer := Function.update stealStart true ⟨8, [[1, 2, 3]], 3, 0, 0⟩

def stealEnd : Bool → ChainBuffer :=
  Function.update (Function.update stealFull false ⟨2, [[1, 2, 3]], 3, 0, 0⟩) true
    ⟨8, [[]], 0, 0, 0⟩

theorem run_splices_steal :
    (spliceLts (ι := Bool)).Run
        [(.call true (.append [1, 2, 3]), .unit), (.splice false true, .unit)] stealEnd ∧
      (stealEnd false).size = 3 ∧
      read wrapSub (stealEnd false) (stealEnd false).size = .ok (3, [1, 2, 3]) := by
  have hstart : (spliceLts (ι := Bool)).Run [] stealStart := by
    refine .start fun i => ?_
    cases i
    · exact ⟨2, by decide, rfl⟩
    · exact ⟨8, by decide, rfl⟩
  have hfull : (spliceLts (ι := Bool)).Run [(.call true (.append [1, 2, 3]), .unit)] stealFull :=
    @Lts.Run.snoc _ _ _ [] _ _ _ hstart ⟨trivial, rfl⟩
  have hrun : (spliceLts (ι := Bool)).Run
      [(.call true (.append [1, 2, 3]), .unit), (.splice false true, .unit)] stealEnd :=
    @Lts.Run.snoc _ _ _ [_] _ _ _ hfull ⟨⟨by decide, .inr ⟨by decide, by decide⟩⟩, rfl⟩
  obtain ⟨-, hholds, -⟩ := run_splices hrun
  exact ⟨hrun, (hholds false).1, (hholds false).2⟩

end HighJump.Io.ChainBuffer
