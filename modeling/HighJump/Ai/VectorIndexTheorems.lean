/-
HighJump.Ai.VectorIndexTheorems — when the `_index` of every
`vector_index` is its own.

`deserialize` and the moves keep ownership whatever happens. `build`
forgets the index that was there, `load` deletes it before it has another
one, and `load` and `load_s` take an index of any type for a `T`. So a run
is sound exactly when its calls keep off these (`run_good_iff`): one lemma
a member says which, and the lemmas of `Lib.Ownership` do the rest.
-/
import HighJump.Ai.VectorIndex

namespace HighJump.Ai.VectorIndex

open HighJump.Lib

/-! ## What should hold -/

/-- Each `_index` is null or a live `T` that no other `vector_index` has,
and nothing was deleted twice. There is none where there is no
`vector_index`. -/
structure World.Sound (w : World) : Prop where
  owned : Owned w.objects w.index
  isT : ∀ k a, w.index k = some a → w.objects.type a = true
  dead : ∀ k, w.alive k = false → w.index k = none

/-- `load`, `load_s` and `deserialize`. -/
def Call.loads : Call → Option Nat
  | .member k (.deserialize _ _) => some k
  | .member k (.load _) => some k
  | .member k (.loadS _ _) => some k
  | _ => none

/-- The call leaves a sound world; an index that is replaced by another is
deleted; and loading that returns false or throws leaves the index that
was there. -/
structure World.Good (w : World) (c : Call) : Prop where
  sound : (w.call c).1.Sound
  replaced : ∀ k a b, w.index k = some a → (w.call c).1.index k = some b → a ≠ b →
    (w.call c).1.objects.deletes a = 1
  kept : ∀ k, c.loads = some k → (w.call c).2 ≠ .returned true →
    (w.call c).1.index k = w.index k ∧
      ∀ a, w.index k = some a → (w.call c).1.objects.Live a

/-- `idx` is null or a live object that no `vector_index` has. -/
def World.Unowned (w : World) (idx : Option Nat) : Prop :=
  ∀ a, idx = some a → w.objects.Live a ∧ ∀ k, w.index k ≠ some a

/-- The members that go wrong, and when they do not. -/
def World.Meets (w : World) : Call → Prop
  | .adopt _ idx => w.Unowned idx
  | .member _ (.setIndex idx) => w.Unowned idx
  | .member k (.build made) => made = true → w.index k = none
  | .member k (.load r) =>
      match r with
      | .index isT => isT = true
      | .null => w.index k = none
      | .threw => w.index k = none
  | .member _ (.loadS f r) => f = .admitted → ∀ isT, r = .index isT → isT = true
  | _ => True

/-! ## One call -/

section

variable {w : World} {c : Call} {k : Nat}

/-- Nothing changes. -/
theorem World.Sound.good_unchanged (h : w.Sound) (hc : (w.call c).1 = w) : w.Good c where
  sound := by rwa [hc]
  replaced k a b ha hb hne := by
    rw [hc, ha] at hb
    exact absurd (Option.some.inj hb) hne
  kept k _ _ := by
    rw [hc]
    exact ⟨rfl, h.owned.live k⟩

/-- The index of `k` is replaced, and what it was is deleted. `o` are the
objects by then, `alive` the `vector_index` objects behind the call. -/
theorem World.Sound.good_replace (h : w.Sound) {o : Objects Bool} {alive : Nat → Bool}
    {p : Option Nat}
    (hc : (w.call c).1 = { objects := o.deletePtr (w.index k), alive,
                           index := Function.update w.index k p })
    (halive : ∀ k', alive k' = false → if k' = k then p = none else w.alive k' = false)
    (ho : Owned o w.index) (hT : ∀ k a, w.index k = some a → o.type a = true)
    (hp : ∀ a, p = some a → (o.Live a ∧ ∀ k, w.index k ≠ some a) ∧ o.type a = true)
    (hloads : c.loads = none ∨ (w.call c).2 = .returned true) : w.Good c := by
  constructor
  case sound =>
    rw [hc]
    constructor
    case owned =>
      refine ho.replace (fun a ha => ⟨(hp a ha).1.1, fun k' _ => (hp a ha).1.2 k'⟩) fun heq => ?_
      cases p with
      | none => rfl
      | some a => exact absurd heq.symm ((hp a rfl).1.2 k)
    case isT =>
      intro k' a hk'
      change (o.deletePtr (w.index k)).type a = true
      rw [Objects.type_deletePtr]
      rcases update_cases hk' with ⟨-, hnew⟩ | ⟨-, hold⟩
      · exact (hp a hnew).2
      · exact hT k' a hold
    case dead =>
      intro k' hk'
      have hdead := halive k' hk'
      change Function.update w.index k p k' = none
      by_cases heq : k' = k
      · rw [if_pos heq] at hdead
        rw [heq, Function.update_self, hdead]
      · rw [if_neg heq] at hdead
        rw [Function.update_of_ne heq]
        exact h.dead k' hdead
  case replaced =>
    rw [hc]
    intro k' a b ha hb hne
    rcases update_cases hb with ⟨heq, -⟩ | ⟨-, hold⟩
    · rw [heq] at ha
      exact ho.deletes_deletePtr ha
    · rw [ha] at hold
      exact absurd (Option.some.inj hold) hne
  case kept =>
    intro k' hk' hres
    rcases hloads with hnone | htrue
    · rw [hnone] at hk'
      cases hk'
    · exact absurd htrue hres

/-- In a call of a member, the same objects are alive. -/
theorem alive_member (halive : w.alive k = true) (p : Option Nat) :
    ∀ k', w.alive k' = false → if k' = k then p = none else w.alive k' = false := by
  intro k' hk'
  have hne : k' ≠ k := by
    rintro rfl
    rw [halive] at hk'
    cases hk'
  rw [if_neg hne]
  exact hk'

theorem alive_construct (p : Option Nat) :
    ∀ k', Function.update w.alive k true k' = false →
      if k' = k then p = none else w.alive k' = false := by
  intro k' hk'
  rcases update_cases hk' with ⟨-, htrue⟩ | ⟨heq, hold⟩
  · cases htrue
  · rw [if_neg heq]
    exact hold

/-- The index is replaced by a new `T`. -/
theorem World.Sound.good_new (h : w.Sound) (halive : w.alive k = true)
    (hc : (w.call c).1 = { w with objects := (w.objects.make true).deletePtr (w.index k),
                                  index := Function.update w.index k (some w.objects.next) })
    (hloads : c.loads = none ∨ (w.call c).2 = .returned true) : w.Good c := by
  refine h.good_replace hc (alive_member halive _) (h.owned.make true) (fun k' a hk' => ?_)
    (fun a ha => ?_) hloads
  · rw [Objects.type_make_old (h.owned.live k' a hk').1]
    exact h.isT k' a hk'
  · obtain rfl := Option.some.inj ha
    exact ⟨⟨(h.owned.free_new true k).1, h.owned.ptr_ne_new⟩, Objects.type_make_new⟩

/-- What the user hands over takes the place of what was there. -/
theorem World.Sound.good_adopted (h : w.Sound) {alive : Nat → Bool} {idx : Option Nat}
    (hc : (w.call c).1 = { objects := w.objects.deletePtr (w.index k), alive,
                           index := Function.update w.index k idx })
    (halive : ∀ k', alive k' = false → if k' = k then idx = none else w.alive k' = false)
    (hidx : w.IsT idx) (hloads : c.loads = none) : w.Good c ↔ w.Unowned idx := by
  constructor
  · rintro ⟨hsound, _, _⟩ a rfl
    rw [hc] at hsound
    have hself : Function.update w.index k (some a) k = some a := Function.update_self ..
    have hlive : (w.objects.deletePtr (w.index k)).Live a := hsound.owned.live k a hself
    have hk : w.index k ≠ some a := by
      intro heq
      rw [heq] at hlive
      exact Objects.not_live_delete hlive
    refine ⟨⟨(hidx a rfl).1, ?_⟩, fun k' hk' => ?_⟩
    · rw [← Objects.deletes_deletePtr_ne hk]
      exact hlive.2
    · have hne : k' ≠ k := fun heq => hk (heq ▸ hk')
      have hother : Function.update w.index k (some a) k' = some a := by
        rw [Function.update_of_ne hne]
        exact hk'
      exact hne (hsound.owned.unique k' k a hother hself)
  · intro hun
    exact h.good_replace hc halive h.owned h.isT (fun a ha => ⟨hun a ha, (hidx a ha).2⟩)
      (.inl hloads)

/-- What `other` has goes to `k`, and what `k` had is deleted. -/
theorem World.Sound.good_moved (h : w.Sound) {other : Nat} {alive : Nat → Bool}
    (hne : k ≠ other)
    (hc : (w.call c).1 =
      { objects := w.objects.deletePtr (w.index k), alive,
        index := Function.update (Function.update w.index other none) k (w.index other) })
    (halive : ∀ k', alive k' = false → k' ≠ k ∧ w.alive k' = false) (hloads : c.loads = none) :
    w.Good c := by
  constructor
  case sound =>
    rw [hc]
    constructor
    case owned =>
      have hmoved := (h.owned.release k).move k other
      rwa [Function.update_comm hne.symm, Function.update_idem, Function.update_of_ne hne.symm,
        Function.update_comm hne] at hmoved
    case isT =>
      intro k' a hk'
      change (w.objects.deletePtr (w.index k)).type a = true
      rw [Objects.type_deletePtr]
      rcases moved_cases hk' with ⟨-, hnew⟩ | ⟨-, hold⟩
      · exact h.isT other a hnew
      · exact h.isT k' a hold
    case dead =>
      intro k' hk'
      obtain ⟨hk, hdead⟩ := halive k' hk'
      change Function.update (Function.update w.index other none) k (w.index other) k' = none
      rw [Function.update_of_ne hk]
      by_cases heq : k' = other
      · rw [heq, Function.update_self]
      · rw [Function.update_of_ne heq]
        exact h.dead k' hdead
  case replaced =>
    rw [hc]
    intro k' a b ha hb hab
    rcases moved_cases hb with ⟨heq, -⟩ | ⟨-, hold⟩
    · rw [heq] at ha
      exact h.owned.deletes_deletePtr ha
    · rw [ha] at hold
      exact absurd (Option.some.inj hold) hab
  case kept =>
    intro k' hk'
    rw [hloads] at hk'
    cases hk'

/-- An index of another type would not do. -/
theorem World.Good.isT_of_new {isT : Bool} {p : Option Nat} (h : w.Good c)
    (hc : (w.call c).1 = { w with objects := (w.objects.make isT).deletePtr p,
                                  index := Function.update w.index k (some w.objects.next) }) :
    isT = true := by
  have htype := h.sound.isT k w.objects.next
  rw [hc] at htype
  have hself := htype (Function.update_self ..)
  rwa [Objects.type_deletePtr, Objects.type_make_new] at hself

theorem member_unchanged {m : Member}
    (h : m.run (w.index k) w.objects = { index := w.index k, objects := w.objects,
                                          result := (w.call (.member k m)).2 }) :
    (w.call (.member k m)).1 = w := by
  rw [World.call, h]
  simp only [Function.update_eq_self]

/-- The order of making and deleting does not matter. -/
theorem make_deletePtr (o : Objects Bool) (p : Option Nat) (t : Bool) :
    (o.deletePtr p).make t = (o.make t).deletePtr p := by
  cases p <;> rfl

/-! ## Each member -/

/-- `build` forgets the index that was there. -/
theorem good_build (h : w.Sound) (halive : w.alive k = true) (made : Bool) :
    w.Good (.member k (.build made)) ↔ (made = true → w.index k = none) := by
  cases made with
  | false =>
      exact iff_of_true (h.good_unchanged (member_unchanged rfl)) fun h => Bool.noConfusion h
  | true =>
      constructor
      · intro hgood _
        by_contra hne
        obtain ⟨a, ha⟩ := Option.ne_none_iff_exists'.mp hne
        have hold := h.owned.live k a ha
        have hdeleted := hgood.replaced k a w.objects.next ha (Function.update_self ..)
          (Nat.ne_of_lt hold.1)
        rw [show ((w.call (.member k (.build true))).1.objects.deletes a) = w.objects.deletes a
          from rfl, hold.2] at hdeleted
        cases hdeleted
      · intro hnone
        refine h.good_new halive ?_ (.inl rfl)
        rw [hnone rfl]
        rfl

theorem good_deserialize (h : w.Sound) (halive : w.alive k = true) (emptyBuffer : Bool)
    (r : Read) : w.Good (.member k (.deserialize emptyBuffer r)) := by
  cases emptyBuffer with
  | true => exact h.good_unchanged (member_unchanged rfl)
  | false =>
      cases r with
      | null => exact h.good_unchanged (member_unchanged rfl)
      | threw => exact h.good_unchanged (member_unchanged rfl)
      | index isT =>
          cases isT with
          | true => exact h.good_new halive rfl (.inr rfl)
          | false =>
              -- the index that was read is deleted and nothing else changes
              have hcall : (w.call (.member k (.deserialize false (.index false)))).1 =
                  { w with objects := (w.objects.make false).delete w.objects.next } := by
                change ({ w with objects := (w.objects.make false).delete w.objects.next,
                                 index := Function.update w.index k (w.index k) } : World) = _
                rw [Function.update_eq_self]
              have hnew := h.owned.free_new false k
              have hown : Owned ((w.objects.make false).delete w.objects.next) w.index :=
                (h.owned.make false).delete hnew.1 h.owned.ptr_ne_new
              refine ⟨?_, fun k' a b ha hb hne => ?_, fun k' _ _ => ?_⟩
              · rw [hcall]
                refine ⟨hown, fun k' a hk' => ?_, h.dead⟩
                change (w.objects.make false).type a = true
                rw [Objects.type_make_old (h.owned.live k' a hk').1]
                exact h.isT k' a hk'
              · rw [hcall] at hb
                rw [show w.index k' = some b from hb] at ha
                exact absurd (Option.some.inj ha).symm hne
              · rw [hcall]
                exact ⟨rfl, hown.live k'⟩

/-- A failed `load` has deleted what it keeps. -/
theorem good_load_failed (h : w.Sound) {r : Read}
    (hr : load (w.index k) w.objects r =
      { index := w.index k, objects := w.objects.deletePtr (w.index k),
        result := (w.call (.member k (.load r))).2 })
    (hres : (w.call (.member k (.load r))).2 ≠ .returned true) :
    w.Good (.member k (.load r)) ↔ w.index k = none := by
  constructor
  · intro hgood
    by_contra hne
    obtain ⟨a, ha⟩ := Option.ne_none_iff_exists'.mp hne
    have hlive := (hgood.kept k rfl hres).2 a ha
    have hobjects : (w.call (.member k (.load r))).1.objects = w.objects.delete a := by
      change (load (w.index k) w.objects r).objects = _
      rw [hr, ha]
      rfl
    rw [hobjects] at hlive
    exact Objects.not_live_delete hlive
  · intro hnone
    refine h.good_unchanged (member_unchanged (hr.trans ?_))
    rw [hnone]
    rfl

theorem good_load (h : w.Sound) (halive : w.alive k = true) (r : Read) :
    w.Good (.member k (.load r)) ↔ w.Meets (.member k (.load r)) := by
  cases r with
  | threw => exact good_load_failed h rfl (fun heq => Result.noConfusion heq)
  | null =>
      refine good_load_failed h rfl fun heq => ?_
      have := Result.returned.inj heq
      cases this
  | index isT =>
      have hcall : (w.call (.member k (.load (.index isT)))).1 =
          { w with objects := (w.objects.make isT).deletePtr (w.index k),
                   index := Function.update w.index k (some w.objects.next) } := by
        change ({ w with objects := (w.objects.deletePtr (w.index k)).make isT,
                         index := Function.update w.index k
                           (some (w.objects.deletePtr (w.index k)).next) } : World) = _
        rw [Objects.next_deletePtr, make_deletePtr]
      constructor
      · exact fun hgood => hgood.isT_of_new hcall
      · rintro rfl
        exact h.good_new halive hcall (.inr rfl)

theorem good_loadS (h : w.Sound) (halive : w.alive k = true) (f : File) (r : Read) :
    w.Good (.member k (.loadS f r)) ↔ (f = .admitted → ∀ isT, r = .index isT → isT = true) := by
  cases f with
  | refused =>
      exact iff_of_true (h.good_unchanged (member_unchanged rfl)) fun heq => by cases heq
  | threw =>
      exact iff_of_true (h.good_unchanged (member_unchanged rfl)) fun heq => by cases heq
  | admitted =>
      cases r with
      | null =>
          exact iff_of_true (h.good_unchanged (member_unchanged rfl)) fun _ _ heq => by cases heq
      | threw =>
          exact iff_of_true (h.good_unchanged (member_unchanged rfl)) fun _ _ heq => by cases heq
      | index isT =>
          have hcall : (w.call (.member k (.loadS .admitted (.index isT)))).1 =
              { w with objects := (w.objects.make isT).deletePtr (w.index k),
                       index := Function.update w.index k (some w.objects.next) } := rfl
          constructor
          · intro hgood _ isT' heq
            obtain rfl := Read.index.inj heq
            exact hgood.isT_of_new hcall
          · intro hT
            obtain rfl := hT rfl isT rfl
            exact h.good_new halive hcall (.inr rfl)

/-! ## Every call -/

theorem good_construct (h : w.Sound) (hdead : w.alive k = false) :
    w.Good (.construct k) := by
  have hcall : (w.call (.construct k)).1 =
      { objects := w.objects.deletePtr (w.index k), alive := Function.update w.alive k true,
        index := Function.update w.index k none } := by
    rw [h.dead k hdead]
    rfl
  exact (h.good_adopted hcall (alive_construct none) nofun rfl).mpr nofun

theorem good_destroy (h : w.Sound) : w.Good (.destroy k) := by
  refine h.good_replace (p := none) rfl (fun k' hk' => ?_) h.owned h.isT nofun (.inl rfl)
  by_cases heq : k' = k
  · rw [if_pos heq]
  · rw [if_neg heq]
    rwa [Function.update_of_ne heq] at hk'

theorem good_newT (h : w.Sound) : w.Good .newT := by
  refine ⟨⟨h.owned.make true, fun k a hk => ?_, h.dead⟩, fun k a b ha hb hne => ?_,
    fun k hk => by cases hk⟩
  · change (w.objects.make true).type a = true
    rw [Objects.type_make_old (h.owned.live k a hk).1]
    exact h.isT k a hk
  · rw [show w.index k = some b from hb] at ha
    exact absurd (Option.some.inj ha).symm hne

/-- The two of a move construction are not one. -/
theorem good_moveConstruct (h : w.Sound) {other : Nat} (hdead : w.alive k = false)
    (halive : w.alive other = true) : w.Good (.moveConstruct k other) := by
  have hne : k ≠ other := by
    rintro rfl
    rw [hdead] at halive
    cases halive
  have hcall : (w.call (.moveConstruct k other)).1 =
      { objects := w.objects.deletePtr (w.index k), alive := Function.update w.alive k true,
        index := Function.update (Function.update w.index other none) k (w.index other) } := by
    rw [h.dead k hdead]
    rfl
  refine h.good_moved hne hcall (fun k' hk' => ?_) rfl
  rcases update_cases hk' with ⟨-, htrue⟩ | hold
  · cases htrue
  · exact hold

theorem good_moveAssign (h : w.Sound) {other : Nat} (halive : w.alive k = true) :
    w.Good (.moveAssign k other) := by
  by_cases hne : k ≠ other
  · have hcall : (w.call (.moveAssign k other)).1 =
        { w with objects := w.objects.deletePtr (w.index k),
                 index := Function.update (Function.update w.index other none) k
                   (w.index other) } := by
      rw [World.call, if_pos hne]
    refine h.good_moved hne hcall (fun k' hk' => ⟨?_, hk'⟩) rfl
    rintro rfl
    rw [halive] at hk'
    cases hk'
  · refine h.good_unchanged ?_
    rw [World.call, if_neg hne]

/-- **A call on a sound world is good exactly if it meets its condition.** -/
theorem good_iff_meets (h : w.Sound) (hv : w.Valid c) : w.Good c ↔ w.Meets c := by
  cases c with
  | newT => exact iff_of_true (good_newT h) trivial
  | construct k => exact iff_of_true (good_construct h hv) trivial
  | adopt k idx =>
      refine h.good_adopted (k := k) ?_ (alive_construct idx) hv.2 rfl
      rw [h.dead k hv.1]
      rfl
  | moveConstruct k other => exact iff_of_true (good_moveConstruct h hv.1 hv.2) trivial
  | moveAssign k other => exact iff_of_true (good_moveAssign h hv.1) trivial
  | destroy k => exact iff_of_true (good_destroy h) trivial
  | member k m =>
      cases m with
      | setIndex idx => exact h.good_adopted rfl (alive_member hv.1 idx) hv.2 rfl
      | build made => exact good_build h hv made
      | deserialize emptyBuffer r => exact iff_of_true (good_deserialize h hv emptyBuffer r) trivial
      | load r => exact good_load h hv r
      | loadS f r => exact good_loadS h hv f r

end

/-! ## Runs -/

theorem sound_new : World.new.Sound where
  owned := owned_empty true
  isT := nofun
  dead _ _ := rfl

theorem run_call {tr : List Call} {w : World} (h : vectorLts.Run tr w) (c : Call)
    (hv : w.Valid c) : vectorLts.Run (tr ++ [c]) (w.call c).1 := h.snoc ⟨hv, rfl⟩

/-- **Every call of a run is good exactly if** each of them meets its
condition. -/
theorem run_good_iff (tr : List Call) (w : World) :
    (vectorLts.guarded World.Good).Run tr w ↔ (vectorLts.guarded World.Meets).Run tr w := by
  refine Lts.Run.guarded_congr (I := World.Sound) ?_ ?_ ?_
  · rintro w rfl
    exact sound_new
  · rintro w c w' h ⟨hv, -⟩
    exact good_iff_meets h hv
  · rintro w c w' h ⟨hv, rfl⟩ hm
    exact ((good_iff_meets h hv).mpr hm).sound

/-- What a run of good calls comes to. -/
theorem sound_of_good {tr : List Call} {w : World}
    (h : (vectorLts.guarded World.Good).Run tr w) : w.Sound := by
  refine Lts.Run.guarded_post (I := World.Sound) ?_ ?_ h
  · rintro w rfl
    exact sound_new
  · rintro w c w' ⟨-, rfl⟩ hgood
    exact hgood.sound

/-- A `load` that fails, and the destructor: one index is deleted twice. -/
theorem run_load_twice :
    ∃ w, vectorLts.Run ([.construct 0] ++ [.member 0 (.build true)] ++
        [.member 0 (.load .threw)] ++ [.destroy 0]) w ∧ w.objects.deletes 0 = 2 ∧
      ¬ (vectorLts.guarded World.Good).Run ([.construct 0] ++ [.member 0 (.build true)] ++
        [.member 0 (.load .threw)] ++ [.destroy 0]) w := by
  have hbuilt := run_call (run_call (.start rfl) (.construct 0) rfl) (.member 0 (.build true)) rfl
  have hloaded := run_call hbuilt (.member 0 (.load .threw)) rfl
  refine ⟨_, run_call hloaded (.destroy 0) rfl, rfl, fun hg => ?_⟩
  have honce := (sound_of_good hg).owned.once 0
  revert honce
  decide

end HighJump.Ai.VectorIndex
