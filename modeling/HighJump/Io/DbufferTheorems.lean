/-
HighJump.Io.DbufferTheorems — when a reader of `hj::dbuffer` sees values
go back.

Between a `write`'s copy and its store to `_front` the back container
holds a value that is not published. No reader finds it through `_front`,
but one that loaded `_front` before the last swap still has its address:
with two writes inside one read, that reader copies a value that is not
published yet, and its next read returns the older one behind `_front`
(`read_goes_back`). `Inv` is what holds in every interleaving;
`run_settled` adds that the reader keeps away from the container being
filled, and there the values returned are published and their calls
never decrease.
-/
import HighJump.Io.Dbuffer

namespace HighJump.Io.Dbuffer

open HighJump.Lib

variable {α : Type}

/-! ## What the writer has filled and not published -/

/-- Between the copy and the store to `_front`. -/
def Writer.Filling : Writer α → Prop
  | .copied | .swapping _ | .storing _ _ => True
  | _ => False

/-- A call is under way and has not stored to `_front`. -/
def Writer.Pending : Writer α → Prop
  | .idle | .stored _ => False
  | _ => True

theorem Writer.Filling.pending {w : Writer α} (h : w.Filling) : w.Pending := by
  cases w with
  | idle | stored _ => exact h
  | loaded _ _ | copied | swapping _ | storing _ _ => trivial

/-- The container holds what the running call has filled in and not
published. -/
def State.Unpublished (s : State α) (slot : Slot) : Prop := s.writer.Filling ∧ slot = s.back

/-- A step by which the reader does not copy what is not published. -/
def Settled (s : State α) : Action α → Prop
  | .readCopy => ∀ front, s.reader = .loaded front → ¬ s.Unpublished front
  | _ => True

/-- Every value returned is the initial one, or the argument of a call
that was published by then. -/
def State.Shown (initial : α) (s : State α) : Prop :=
  ∀ r ∈ s.returned, r.1 = ⟨0, initial⟩ ∨
    (r.1.call ∈ r.2 ∧ s.written[r.1.call - 1]? = some r.1.value)

/-- The calls whose values are returned never decrease. -/
def State.InOrder (s : State α) : Prop :=
  s.returned.Pairwise fun earlier later => earlier.1.call ≤ later.1.call

/-! ## What holds in every interleaving -/

/-- Where the pointers are, and what the writer has loaded of them. -/
def Writer.Pointers (back front : Slot) : Writer α → Prop
  | .idle | .copied => back ≠ front
  | .loaded b _ => b = back ∧ back ≠ front
  | .swapping tmp => tmp = front ∧ back ≠ front
  | .storing tmp b => tmp = front ∧ b = back ∧ back ≠ front
  | .stored tmp => back = front ∧ tmp ≠ front

/-- The contents are the initial ones, or the argument of the call they
are numbered with. -/
def Contents.From (initial : α) (written : List α) (c : Contents α) : Prop :=
  c = ⟨0, initial⟩ ∨ (0 < c.call ∧ written[c.call - 1]? = some c.value)

structure Inv (initial : α) (s : State α) : Prop where
  pointers : s.writer.Pointers s.back s.front
  argument : ∀ back value, s.writer = .loaded back value → s.written.getLast? = some value
  origin : ∀ slot, (s.mem slot).From initial s.written
  called : ∀ slot, (s.mem slot).call ≤ s.call
  filled : s.writer.Filling → (s.mem s.back).call = s.call
  pending : s.writer.Pending → (s.mem s.front).call < s.call
  shown : ∀ slot, ¬ s.Unpublished slot → (s.mem slot).call ∈ 0 :: s.published
  newest : ∀ call ∈ 0 :: s.published, call ≤ (s.mem s.front).call

theorem Contents.From.append {initial : α} {written : List α} {c : Contents α}
    (h : c.From initial written) (more : List α) : c.From initial (written ++ more) := by
  rcases h with h | ⟨hpos, hget⟩
  · exact .inl h
  · refine .inr ⟨hpos, ?_⟩
    obtain ⟨hlt, -⟩ := List.getElem?_eq_some_iff.mp hget
    rw [List.getElem?_append_left hlt, hget]

/-- The last argument is the latest call's. -/
theorem State.getElem?_call {s : State α} {value : α} (h : s.written.getLast? = some value) :
    0 < s.call ∧ s.written[s.call - 1]? = some value := by
  have hne : s.written ≠ [] := by
    intro hnil
    rw [hnil] at h
    cases h
  refine ⟨List.length_pos_of_ne_nil hne, ?_⟩
  rw [← h, List.getLast?_eq_getElem?]
  rfl

section Steps

variable {initial : α} {s s' : State α}

theorem inv_new : Inv initial (State.new initial) where
  pointers := fun h => by cases h
  argument := fun back value h => by cases h
  origin := fun slot => .inl rfl
  called := fun slot => Nat.le_refl 0
  filled := fun h => h.elim
  pending := fun h => h.elim
  shown := fun slot _ => .head _
  newest := fun call h => by
    rcases List.mem_cons.mp h with rfl | h
    · exact Nat.le_refl 0
    · cases h

/-- No call is filling a container: what is in them is published. -/
theorem Inv.shown_all (h : Inv initial s) (hw : ¬ s.writer.Filling) (slot : Slot) :
    (s.mem slot).call ∈ 0 :: s.published :=
  h.shown slot fun hu => hw hu.1

theorem Inv.writeLoad (h : Inv initial s) (hpc : s.writer = .idle) (value : α) :
    Inv initial (s.writeLoad value) := by
  have hw : ¬ s.writer.Filling := by rw [hpc]; exact id
  have hptr := h.pointers
  rw [hpc] at hptr
  have hcall : (s.writeLoad value).call = s.call + 1 := List.length_append
  refine ⟨⟨rfl, hptr⟩, ?_, fun slot => (h.origin slot).append [value], ?_, fun hf => hf.elim, ?_,
    fun slot _ => h.shown_all hw slot, h.newest⟩
  · intro back v hl
    cases hl
    exact List.getLast?_concat
  · intro slot
    rw [hcall]
    exact Nat.le_succ_of_le (h.called slot)
  · intro _
    rw [hcall]
    exact Nat.lt_succ_of_le (h.called s.front)

theorem Inv.writeCopy {back : Slot} {value : α} (h : Inv initial s)
    (hpc : s.writer = .loaded back value) : Inv initial (s.writeCopy back value) := by
  have hptr := h.pointers
  have hpend := h.pending
  rw [hpc] at hptr hpend
  obtain ⟨rfl, hne⟩ := hptr
  have hw : ¬ s.writer.Filling := by rw [hpc]; exact id
  have hback : (s.writeCopy s.back value).mem s.back = ⟨s.call, value⟩ :=
    Function.update_self ..
  have hother : ∀ slot, slot ≠ s.back → (s.writeCopy s.back value).mem slot = s.mem slot :=
    fun slot hs => Function.update_of_ne hs ..
  have hfront := hother s.front hne.symm
  refine ⟨hne, fun b v hl => (by cases hl), ?_, ?_, ?_, ?_, ?_, ?_⟩
  · intro slot
    by_cases hs : slot = s.back
    · rw [hs, hback]
      exact .inr (State.getElem?_call (h.argument _ _ hpc))
    · rw [hother slot hs]
      exact h.origin slot
  · intro slot
    by_cases hs : slot = s.back
    · rw [hs, hback]
      exact Nat.le_refl _
    · rw [hother slot hs]
      exact h.called slot
  · intro _
    exact congrArg Contents.call hback
  · intro _
    exact lt_of_eq_of_lt (congrArg Contents.call hfront) (hpend trivial)
  · intro slot hu
    rw [hother slot fun hs => hu ⟨trivial, hs⟩]
    exact h.shown_all hw slot
  · intro call hc
    exact le_of_le_of_eq (h.newest call hc) (congrArg Contents.call hfront).symm

theorem Inv.swapStoreFront {tmp back : Slot} (h : Inv initial s)
    (hpc : s.writer = .storing tmp back) : Inv initial (s.swapStoreFront tmp back) := by
  have hptr := h.pointers
  have hfill := h.filled
  have hpend := h.pending
  rw [hpc] at hptr hfill hpend
  obtain ⟨rfl, rfl, hne⟩ := hptr
  have hcall : (s.mem s.back).call = s.call := hfill trivial
  refine ⟨⟨rfl, hne.symm⟩, fun b v hl => (by cases hl), h.origin, h.called, fun hf => hf.elim,
    fun hp => hp.elim, ?_, ?_⟩
  · intro slot _
    show (s.mem slot).call ∈ 0 :: s.published ++ [s.call]
    by_cases hs : slot = s.back
    · rw [hs, hcall]
      exact List.mem_append.mpr (.inr (List.mem_singleton_self _))
    · exact List.mem_append.mpr (.inl (h.shown slot fun hu => hs hu.2))
  · intro call hc
    have hc : call ∈ 0 :: s.published ++ [s.call] := hc
    show call ≤ (s.mem s.back).call
    rw [hcall]
    rcases List.mem_append.mp hc with hc | hc
    · exact Nat.le_trans (h.newest call hc) (Nat.le_of_lt (hpend trivial))
    · exact Nat.le_of_eq (List.mem_singleton.mp hc)

/-- The loads of `swap` leave everything but what the writer knows. -/
theorem Inv.swapLoad {w : Writer α} (h : Inv initial s) (hold : s.writer.Filling)
    (hnew : w.Filling) (hptr : w.Pointers s.back s.front) : Inv initial { s with writer := w } where
  pointers := hptr
  argument := fun back value hw => by
    have hw : w = .loaded back value := hw
    rw [hw] at hnew
    exact hnew.elim
  origin := h.origin
  called := h.called
  filled := fun _ => h.filled hold
  pending := fun _ => h.pending hold.pending
  shown := fun slot hu => h.shown slot fun hs => hu ⟨hnew, hs.2⟩
  newest := h.newest

/-- A call ends, with `_back` where it points to now. -/
theorem Inv.toIdle {back : Slot} (h : Inv initial s) (hw : ¬ s.writer.Filling)
    (hne : back ≠ s.front) : Inv initial { s with back := back, writer := .idle } where
  pointers := hne
  argument := fun b v hl => by cases hl
  origin := h.origin
  called := h.called
  filled := fun hf => hf.elim
  pending := fun hp => hp.elim
  shown := fun slot _ => h.shown_all hw slot
  newest := h.newest

/-- **One step keeps the invariant**, whoever takes it. -/
theorem Inv.step {a : Action α} (h : Inv initial s) (hs : Step s a s') : Inv initial s' := by
  have hptr := h.pointers
  cases hs with
  | writeLoad hpc => exact h.writeLoad hpc _
  | writeCopy hpc => exact h.writeCopy hpc
  | writeRefused hpc =>
    rw [hpc] at hptr
    exact h.toIdle (by rw [hpc]; exact id) hptr.2
  | swapLoadFront hpc =>
    rw [hpc] at hptr
    exact h.swapLoad (by rw [hpc]; trivial) trivial ⟨rfl, hptr⟩
  | swapLoadBack hpc =>
    rw [hpc] at hptr
    exact h.swapLoad (by rw [hpc]; trivial) trivial ⟨hptr.1, rfl, hptr.2⟩
  | swapStoreFront hpc => exact h.swapStoreFront hpc
  | swapStoreBack hpc =>
    rw [hpc] at hptr
    exact h.toIdle (by rw [hpc]; exact id) hptr.2
  | readLoad _ | readCopy _ | readRefused _ =>
    exact ⟨h.pointers, h.argument, h.origin, h.called, h.filled, h.pending, h.shown, h.newest⟩

/-- The values behind the pointers only ever get newer. -/
theorem Inv.call_mono {a : Action α} (h : Inv initial s) (hs : Step s a s') (slot : Slot) :
    (s.mem slot).call ≤ (s'.mem slot).call := by
  cases hs with
  | @writeCopy back value hpc =>
    show _ ≤ (Function.update s.mem back ⟨s.call, value⟩ slot).call
    by_cases hb : slot = back
    · rw [hb, Function.update_self]
      exact h.called back
    · exact Nat.le_of_eq (congrArg Contents.call (Function.update_of_ne hb ..).symm)
  | _ => exact Nat.le_refl _

theorem Inv.front_mono {a : Action α} (h : Inv initial s) (hs : Step s a s') :
    (s.mem s.front).call ≤ (s'.mem s'.front).call := by
  have hmono := h.call_mono hs s.front
  have hptr := h.pointers
  have hfill := h.filled
  cases hs with
  | swapStoreFront hpc =>
    rw [hpc] at hptr hfill
    obtain ⟨-, rfl, -⟩ := hptr
    exact le_of_le_of_eq (h.called s.front) (hfill trivial).symm
  | _ => exact hmono

end Steps

theorem run_inv {initial : α} {tr : List (Action α)} {s : State α}
    (h : (dbufferLts initial).Run tr s) : Inv initial s :=
  Lts.Run.invariant (I := fun _ s => Inv initial s)
    (fun _ hs => (by rw [hs]; exact inv_new)) (fun _ _ _ _ _ hi hs => hi.step hs) h

/-! ## Reads that keep away from it -/

/-- What has been returned is not newer than what the next read finds,
nor than what the running one will. -/
structure Ordered (initial : α) (s : State α) : Prop where
  behind : ∀ r ∈ s.returned, r.1.call ≤ (s.mem s.front).call
  held : ∀ front, s.reader = .loaded front → ∀ r ∈ s.returned, r.1.call ≤ (s.mem front).call
  shown : s.Shown initial
  inOrder : s.InOrder

section Reads

variable {initial : α} {s s' : State α} {a : Action α}

theorem ordered_new : Ordered initial (State.new initial) where
  behind := fun r hr => by cases hr
  held := fun front hf => by cases hf
  shown := fun r hr => by cases hr
  inOrder := List.Pairwise.nil

/-- A step of the writer. -/
theorem Ordered.frame (h : Ordered initial s) (hi : Inv initial s) (hs : Step s a s')
    (hret : s'.returned = s.returned) (hread : s'.reader = s.reader)
    (hwritten : s.written <+: s'.written) : Ordered initial s' := by
  refine ⟨?_, ?_, ?_, ?_⟩
  · rw [hret]
    exact fun r hr => Nat.le_trans (h.behind r hr) (hi.front_mono hs)
  · rw [hret, hread]
    exact fun front hf r hr => Nat.le_trans (h.held front hf r hr) (hi.call_mono hs front)
  · intro r hr
    rw [hret] at hr
    refine (h.shown r hr).imp_right fun ⟨hmem, hval⟩ => ⟨hmem, ?_⟩
    obtain ⟨more, hmore⟩ := hwritten
    obtain ⟨hlt, -⟩ := List.getElem?_eq_some_iff.mp hval
    rw [← hmore, List.getElem?_append_left hlt, hval]
  · rw [State.InOrder, hret]
    exact h.inOrder

theorem Ordered.readCopy {front : Slot} (h : Ordered initial s) (hi : Inv initial s)
    (hpc : s.reader = .loaded front) (hg : ¬ s.Unpublished front) :
    Ordered initial (s.readCopy front) := by
  have hmem := hi.shown front hg
  have hnew : ∀ r ∈ s.returned ++ [(s.mem front, s.published)],
      r ∈ s.returned ∨ r = (s.mem front, s.published) := by
    intro r hr
    exact (List.mem_append.mp hr).imp_right List.mem_singleton.mp
  refine ⟨?_, fun f hf => (by cases hf), ?_, ?_⟩
  · intro r hr
    rcases hnew r hr with hr | rfl
    · exact h.behind r hr
    · exact hi.newest _ hmem
  · intro r hr
    rcases hnew r hr with hr | rfl
    · exact h.shown r hr
    · refine (hi.origin front).imp_right fun ⟨hpos, hval⟩ => ⟨?_, hval⟩
      exact (List.mem_cons.mp hmem).resolve_left (Nat.ne_of_gt hpos)
  · refine List.pairwise_append.mpr ⟨h.inOrder, List.pairwise_singleton _ _, ?_⟩
    intro r hr r' hr'
    rw [List.mem_singleton.mp hr']
    exact h.held front hpc r hr

theorem Ordered.step (h : Ordered initial s) (hi : Inv initial s) (hg : Settled s a)
    (hs : Step s a s') : Ordered initial s' := by
  have hframe := h.frame hi hs
  cases hs with
  | writeLoad _ => exact hframe rfl rfl (List.prefix_append _ _)
  | writeCopy _ | writeRefused _ | swapLoadFront _ | swapLoadBack _ | swapStoreFront _
    | swapStoreBack _ => exact hframe rfl rfl List.prefix_rfl
  | readLoad _ =>
    refine ⟨h.behind, ?_, h.shown, h.inOrder⟩
    intro front hf
    cases hf
    exact h.behind
  | readCopy hpc => exact h.readCopy hi hpc (hg _ hpc)
  | readRefused _ => exact ⟨h.behind, fun f hf => (by cases hf), h.shown, h.inOrder⟩

/-- **In a run whose reads keep away from the container being filled**,
what is returned is published and in order. -/
theorem run_settled {tr : List (Action α)}
    (h : ((dbufferLts initial).guarded Settled).Run tr s) : Ordered initial s := by
  refine Lts.Run.invariant (I := fun _ s => Ordered initial s) ?_ ?_ h
  · rintro s rfl
    exact ordered_new
  · rintro tr s a s' hr ho ⟨hg, hs⟩
    exact ho.step (run_inv hr.unguarded) hg hs

/-! ## Exactly when -/

/-- Every call whose value was returned was published by then. -/
def State.Known (s : State α) : Prop := ∀ r ∈ s.returned, r.1.call ∈ 0 :: r.2

theorem State.Shown.known (h : s.Shown initial) : s.Known := by
  intro r hr
  rcases h r hr with heq | ⟨hmem, -⟩
  · rw [heq]
    exact .head _
  · exact .tail _ hmem

/-- What has been returned stays returned. -/
theorem Step.returned_prefix (hs : Step s a s') : s.returned <+: s'.returned := by
  cases hs with
  | readCopy _ => exact List.prefix_append _ _
  | _ => exact List.prefix_rfl

/-- A read of what is not published returns just that. -/
theorem Inv.settled (hi : Inv initial s) (hs : Step s a s') (h : s'.Known) : Settled s a := by
  cases hs with
  | @readCopy front hpc =>
    intro f hf hu
    obtain rfl : front = f := by
      rw [hpc] at hf
      exact Reader.loaded.inj hf
    have hmem : (s.mem front).call ∈ 0 :: s.published :=
      h (s.mem front, s.published) (List.mem_append.mpr (.inr (List.mem_singleton_self _)))
    have hcall : (s.mem front).call = s.call := by
      rw [hu.2]
      exact hi.filled hu.1
    have hle := hi.newest _ hmem
    have hlt := hi.pending hu.1.pending
    omega
  | _ => trivial

theorem run_settled_of_known {tr : List (Action α)} (h : (dbufferLts initial).Run tr s)
    (hk : s.Known) : ((dbufferLts initial).guarded Settled).Run tr s := by
  refine h.guarded_of_back (I := State.Known) ?_ hk
  intro tr s a s' hr hs hk
  refine ⟨(run_inv hr).settled hs hk, fun r hmem => hk r ?_⟩
  exact hs.returned_prefix.subset hmem

/-- **Reads of a dbuffer**: every value returned is the initial one or
one published before, and the calls never decrease, exactly in the runs
in which no read copies from the container that the running `write` has
filled and not stored to `_front`. -/
theorem reads_shown_in_order_iff {tr : List (Action α)} (h : (dbufferLts initial).Run tr s) :
    s.Shown initial ∧ s.InOrder ↔ ((dbufferLts initial).guarded Settled).Run tr s := by
  constructor
  · intro ⟨hshown, _⟩
    exact run_settled_of_known h hshown.known
  · intro hg
    have ho := run_settled hg
    exact ⟨ho.shown, ho.inOrder⟩

end Reads

/-- A `read` loads `_front` and copies while a `write` has filled the other
container, and another reads what the `write` has stored while it is still
in `swap`. -/
theorem write_overlaps_reads : ∃ tr s, (dbufferLts 0).Run tr s ∧
    s.returned = [(⟨0, 0⟩, []), (⟨1, 7⟩, [1])] ∧ s.writer = .stored .frontData ∧
    s.Shown 0 ∧ s.InOrder := by
  have h0 : ((dbufferLts 0).guarded Settled).Run [] (.new 0) := .start rfl
  have hread := h0.snocGuarded (.readLoad rfl) trivial
  have hload := hread.snocGuarded (@Step.writeLoad _ _ 7 rfl) trivial
  have hcopy := hload.snocGuarded (.writeCopy rfl) trivial
  -- the read has the front container, the write the back one
  have hold := hcopy.snocGuarded (.readCopy rfl) (by
    rintro f hf ⟨-, hback⟩
    cases hf
    cases hback)
  have htmp := hold.snocGuarded (.swapLoadFront rfl) trivial
  have hback := htmp.snocGuarded (.swapLoadBack rfl) trivial
  have hfront := hback.snocGuarded (.swapStoreFront rfl) trivial
  have hagain := hfront.snocGuarded (.readLoad rfl) trivial
  have hnew := hagain.snocGuarded (.readCopy rfl) (by
    rintro f - ⟨hwriter, -⟩
    cases hwriter)
  exact ⟨_, _, hnew.unguarded, rfl, rfl, (reads_shown_in_order_iff hnew.unguarded).2 hnew⟩

/-- A `read` loads `_front`; the first `write` swaps, and the second fills
the container the read is about to copy. The read returns 8, which is
not published, and the next read returns 7. -/
theorem read_goes_back : ∃ tr s, (dbufferLts 0).Run tr s ∧
    s.returned = [(⟨2, 8⟩, [1]), (⟨1, 7⟩, [1])] ∧ ¬ s.Shown 0 ∧ ¬ s.InOrder := by
  have h0 : (dbufferLts 0).Run [] (.new 0) := .start rfl
  have hread := h0.snoc (.readLoad rfl)
  have hcopy := (hread.snoc (@Step.writeLoad _ _ 7 rfl)).snoc (.writeCopy rfl)
  have hstore := ((hcopy.snoc (.swapLoadFront rfl)).snoc (.swapLoadBack rfl)).snoc
    (.swapStoreFront rfl)
  have hsecond := ((hstore.snoc (.swapStoreBack rfl)).snoc (@Step.writeLoad _ _ 8 rfl)).snoc
    (.writeCopy rfl)
  have hfirst := hsecond.snoc (.readCopy rfl)
  have hnext := (hfirst.snoc (.readLoad rfl)).snoc (.readCopy rfl)
  obtain ⟨tr, s, hrun, hret⟩ : ∃ tr s, (dbufferLts 0).Run tr s ∧
      s.returned = [(⟨2, 8⟩, [1]), (⟨1, 7⟩, [1])] := ⟨_, _, hnext, rfl⟩
  refine ⟨tr, s, hrun, hret, ?_, ?_⟩
  · intro h
    have hmem : (⟨2, 8⟩, [1]) ∈ s.returned := by
      rw [hret]
      exact .head _
    have hfalse : 2 ∈ [0, 1] := h.known _ hmem
    revert hfalse
    decide
  · intro h
    rw [State.InOrder, hret, List.pairwise_pair] at h
    revert h
    decide

end HighJump.Io.Dbuffer
