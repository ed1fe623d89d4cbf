/-
HighJump.Ai.LlamaModelTheorems — when every `llama_model` has one owner.

Two calls go wrong. A `load` that fails has freed the old model and keeps
pointing to it, and answers true. A `get_model` hands out a second owner
of the model the context was made from, or of a dead one: a live model
always has an owner already (`World.Kept`). Every other call keeps
ownership, so a run is sound exactly when it keeps off these two
(`run_sound_iff`).
-/
import HighJump.Ai.LlamaModel

namespace HighJump.Ai.LlamaModel

open HighJump.Lib

/-! ## What should hold -/

/-- Each `_model` is null or a live `llama_model` that no other `model`
will free, and none was freed twice. There is none where there is no
`model`. -/
structure World.Sound (w : World) : Prop where
  owned : Owned w.objects w.model
  dead : ∀ k, w.isModel k = false → w.model k = none

/-- The call leaves a sound world, and a `load` returns true exactly if it
has loaded. -/
structure World.Good (w : World) (c : Call) : Prop where
  sound : (w.call c).1.Sound
  truthful : ∀ k src loaded, c = .load k src loaded →
    ((w.call c).2 = some true ↔ src.admitted = true ∧ loaded = true)

/-- A `load` that gets as far as to fail has nothing to lose, and
`get_model` is not asked of a context that has one. -/
def World.Meets (w : World) : Call → Prop
  | .load k src loaded => src.admitted = true → loaded = true ∨ w.model k = none
  | .getModel c _ => w.ctx c = none
  | _ => True

/-- A sound world in which every live model has an owner. -/
structure World.Kept (w : World) : Prop where
  sound : w.Sound
  held : Held w.objects w.model

/-! ## Changes of one pointer -/

section

variable {w : World} {c : Call} {k : Nat}

/-- Those that are not there have nothing, also behind a construction. -/
theorem dead_construct (hdead : ∀ k, w.isModel k = false → w.model k = none) (p : Option Nat) :
    ∀ k', Function.update w.isModel k true k' = false →
      Function.update w.model k p k' = none := by
  intro k' hk'
  rcases update_cases hk' with ⟨-, htrue⟩ | ⟨hne, hold⟩
  · cases htrue
  · rw [Function.update_of_ne hne]
    exact hdead k' hold

theorem dead_member (hdead : ∀ k, w.isModel k = false → w.model k = none)
    (hk : w.isModel k = true) (p : Option Nat) :
    ∀ k', w.isModel k' = false → Function.update w.model k p k' = none := by
  intro k' hk'
  have hne : k' ≠ k := by
    rintro rfl
    rw [hk] at hk'
    cases hk'
  rw [Function.update_of_ne hne]
  exact hdead k' hk'

/-- Neither the models nor what owns them change. -/
theorem World.Kept.good_unchanged (h : w.Kept)
    (hobjects : (w.call c).1.objects = w.objects) (hmodel : (w.call c).1.model = w.model)
    (hisModel : (w.call c).1.isModel = w.isModel)
    (hload : ∀ k src loaded, c = .load k src loaded →
      ((w.call c).2 = some true ↔ src.admitted = true ∧ loaded = true)) :
    w.Good c ∧ (w.call c).1.Kept := by
  have hsound : (w.call c).1.Sound := by
    refine ⟨?_, ?_⟩
    · rw [hobjects, hmodel]
      exact h.sound.owned
    · rw [hisModel, hmodel]
      exact h.sound.dead
  refine ⟨⟨hsound, hload⟩, hsound, ?_⟩
  rw [hobjects, hmodel]
  exact h.held

/-- A call that is not a `load` and leaves the world in order. -/
theorem World.Kept.good_of (hsound : (w.call c).1.Sound)
    (hheld : Held (w.call c).1.objects (w.call c).1.model)
    (hc : ∀ k src loaded, c ≠ .load k src loaded) : w.Good c ∧ (w.call c).1.Kept :=
  ⟨⟨hsound, fun k src loaded heq => absurd heq (hc k src loaded)⟩, hsound, hheld⟩

/-! ## Each call -/

/-- What the checks of a `load` let through, if llama.cpp makes a model. -/
theorem load_loaded (o : Objects Unit) (model : Option Nat) {src : Source}
    (h : src.admitted = true) :
    load model o src true = { model := some o.next, objects := (o.make ()).deletePtr model,
                              result := true } := by
  have hfrom : load model o src true = loadFrom model o src.admitted true := by
    cases src <;> rfl
  rw [hfrom, h]
  cases model <;> rfl

theorem load_failed (o : Objects Unit) (model : Option Nat) {src : Source}
    (h : src.admitted = true) :
    load model o src false = { model, objects := o.deletePtr model, result := model.isSome } := by
  have hfrom : load model o src false = loadFrom model o src.admitted false := by
    cases src <;> rfl
  rw [hfrom, h]
  rfl

theorem load_refused (o : Objects Unit) (model : Option Nat) {src : Source}
    (h : src.admitted = false) (loaded : Bool) :
    load model o src loaded = { model, objects := o, result := false } := by
  have hfrom : load model o src loaded = loadFrom model o src.admitted loaded := by
    cases src <;> rfl
  rw [hfrom, h]
  rfl

/-- The call of a `load`, from what the `load` comes to. -/
theorem call_load {src : Source} {loaded : Bool} {a : After}
    (h : load (w.model k) w.objects src loaded = a) :
    w.call (.load k src loaded) =
      ({ w with objects := a.objects, model := Function.update w.model k a.model },
        some a.result) := by
  rw [World.call, h]

/-- **A failed `load` frees the model it keeps**, and says true. -/
theorem good_load (h : w.Kept) (hk : w.isModel k = true) (src : Source) (loaded : Bool) :
    (w.Good (.load k src loaded) ↔ w.Meets (.load k src loaded)) ∧
      (w.Meets (.load k src loaded) → (w.call (.load k src loaded)).1.Kept) := by
  cases hsrc : src.admitted with
  | false =>
      have hcall := call_load (load_refused w.objects (w.model k) hsrc loaded)
      rw [Function.update_eq_self] at hcall
      have hgood := h.good_unchanged (c := .load k src loaded) (by rw [hcall]) (by rw [hcall])
        (by rw [hcall]) ?_
      · refine ⟨iff_of_true hgood.1 ?_, fun _ => hgood.2⟩
        intro hadm
        rw [hsrc] at hadm
        cases hadm
      · intro k' src' loaded' heq
        obtain ⟨-, rfl, -⟩ := Call.load.inj heq
        rw [hcall, hsrc]
        simp
  | true =>
      cases loaded with
      | true =>
          have hcall := call_load (load_loaded w.objects (w.model k) hsrc)
          have hsound : (w.call (.load k src true)).1.Sound := by
            rw [hcall]
            exact ⟨h.sound.owned.replaceNew k (), dead_member h.sound.dead hk _⟩
          refine ⟨iff_of_true ⟨hsound, ?_⟩ fun _ => .inl rfl, fun _ => ⟨hsound, ?_⟩⟩
          · intro k' src' loaded' heq
            obtain ⟨-, rfl, rfl⟩ := Call.load.inj heq
            rw [hcall, hsrc]
            simp
          · rw [hcall]
            exact h.held.replaceNew k ()
      | false =>
          have hcall := call_load (load_failed w.objects (w.model k) hsrc)
          have hmeets : w.Meets (.load k src false) ↔ w.model k = none := by
            rw [World.Meets, hsrc]
            simp
          cases hmodel : w.model k with
          | none =>
              have hsame : w.call (.load k src false) = (w, some false) := by
                rw [hcall, hmodel, ← hmodel, Function.update_eq_self, hmodel]
                rfl
              have hgood := h.good_unchanged (c := .load k src false) (by rw [hsame])
                (by rw [hsame]) (by rw [hsame]) ?_
              · exact ⟨iff_of_true hgood.1 (hmeets.mpr hmodel), fun _ => hgood.2⟩
              · intro k' src' loaded' heq
                obtain ⟨-, -, rfl⟩ := Call.load.inj heq
                rw [hsame]
                simp
          | some a =>
              have hno : ¬ w.Meets (.load k src false) := by
                rw [hmeets, hmodel]
                exact Option.some_ne_none a
              refine ⟨iff_of_false (fun hgood => ?_) hno, fun hm => absurd hm hno⟩
              -- the answer is true all the same
              have htrue := (hgood.truthful k src false rfl).mp (by rw [hcall, hmodel]; rfl)
              cases htrue.2

/-- **A second owner**: what a context was made from is dead by now, or
has an owner. -/
theorem good_getModel (h : w.Kept) {ctx : Nat} (hdead : w.isModel k = false) :
    (w.Good (.getModel ctx k) ↔ w.ctx ctx = none) ∧
      (w.ctx ctx = none → (w.call (.getModel ctx k)).1.Kept) := by
  cases hctx : w.ctx ctx with
  | none =>
      have hcall : w.call (.getModel ctx k) = (w, none) := by rw [World.call, if_pos hctx]
      have hgood := h.good_unchanged (c := .getModel ctx k) (by rw [hcall]) (by rw [hcall])
        (by rw [hcall]) (fun k src loaded heq => by cases heq)
      exact ⟨iff_of_true hgood.1 rfl, fun _ => hgood.2⟩
  | some a =>
      refine ⟨iff_of_false (fun hgood => ?_) (Option.some_ne_none a), fun hnone => ?_⟩
      · have hcall : (w.call (.getModel ctx k)).1 =
            { w with isModel := Function.update w.isModel k true,
                     model := Function.update w.model k (some a) } := by
          rw [World.call, if_neg (by rw [hctx]; exact Option.some_ne_none a), hctx]
        have hown := hgood.sound.owned
        rw [hcall] at hown
        have hself : Function.update w.model k (some a) k = some a := Function.update_self ..
        obtain ⟨k', hk'⟩ := h.held a (hown.live k a hself)
        have hne : k' ≠ k := by
          rintro rfl
          rw [h.sound.dead k' hdead] at hk'
          cases hk'
        have hother : Function.update w.model k (some a) k' = some a := by
          rw [Function.update_of_ne hne]
          exact hk'
        exact hne (hown.unique k' k a hother hself)
      · cases hnone

theorem good_construct (h : w.Kept) (hdead : w.isModel k = false) :
    w.Good (.construct k) ∧ (w.call (.construct k)).1.Kept := by
  have hmodel : Function.update w.model k none = w.model := by
    rw [← h.sound.dead k hdead]
    exact Function.update_eq_self k w.model
  refine World.Kept.good_of ⟨?_, dead_construct h.sound.dead none⟩ ?_ fun _ _ _ heq => by cases heq
  · change Owned w.objects (Function.update w.model k none)
    rw [hmodel]
    exact h.sound.owned
  · change Held w.objects (Function.update w.model k none)
    rw [hmodel]
    exact h.held

theorem good_constructLoaded (h : w.Kept) (hdead : w.isModel k = false) (loaded : Bool) :
    w.Good (.constructLoaded k loaded) ∧ (w.call (.constructLoaded k loaded)).1.Kept := by
  cases loaded with
  | false =>
      have hkept := good_construct h hdead
      exact World.Kept.good_of hkept.2.sound hkept.2.held fun _ _ _ heq => by cases heq
  | true =>
      have hown := h.sound.owned.replaceNew k ()
      have hheld := h.held.replaceNew k ()
      rw [h.sound.dead k hdead] at hown hheld
      exact World.Kept.good_of ⟨hown, dead_construct h.sound.dead _⟩ hheld
        fun _ _ _ heq => by cases heq

theorem good_moveConstruct (h : w.Kept) {other : Nat} (hdead : w.isModel k = false)
    (hother : w.isModel other = true) :
    w.Good (.moveConstruct k other) ∧ (w.call (.moveConstruct k other)).1.Kept := by
  have hne : k ≠ other := by
    rintro rfl
    rw [hdead] at hother
    cases hother
  refine World.Kept.good_of ⟨h.sound.owned.move k other, ?_⟩
    (h.held.move (h.sound.dead k hdead) hne) fun _ _ _ heq => by cases heq
  have hcleared : ∀ k', w.isModel k' = false → Function.update w.model other none k' = none :=
    dead_member h.sound.dead hother none
  exact dead_construct (w := { w with model := Function.update w.model other none }) hcleared _

theorem good_free (h : w.Kept) (hk : w.isModel k = true) :
    w.Good (.free k) ∧ (w.call (.free k)).1.Kept := by
  have hcall : (w.call (.free k)).1 =
      { w with objects := w.objects.deletePtr (w.model k),
               model := Function.update w.model k none } := by
    rw [World.call, free]
    by_cases hnone : w.model k = none
    · rw [if_pos hnone, hnone]
      rfl
    · rw [if_neg hnone]
  refine World.Kept.good_of ?_ ?_ fun _ _ _ heq => by cases heq
  · rw [hcall]
    exact ⟨h.sound.owned.release k, dead_member h.sound.dead hk none⟩
  · rw [hcall]
    exact h.held.release k

theorem good_destroy (h : w.Kept) :
    w.Good (.destroy k) ∧ (w.call (.destroy k)).1.Kept := by
  refine World.Kept.good_of ⟨h.sound.owned.release k, fun k' hk' => ?_⟩ (h.held.release k)
    fun _ _ _ heq => by cases heq
  change Function.update w.model k none k' = none
  by_cases heq : k' = k
  · rw [heq, Function.update_self]
  · rw [Function.update_of_ne heq]
    refine h.sound.dead k' ?_
    rwa [show (w.call (.destroy k)).1.isModel k' = w.isModel k' from Function.update_of_ne heq ..]
      at hk'

/-- **A call is good exactly if it meets its condition**, and then every
live model still has an owner. -/
theorem good_iff_meets (h : w.Kept) (hv : w.Valid c) :
    (w.Good c ↔ w.Meets c) ∧ (w.Meets c → (w.call c).1.Kept) := by
  have hfine {c : Call} (hgood : w.Good c ∧ (w.call c).1.Kept) (hm : w.Meets c) :
      (w.Good c ↔ w.Meets c) ∧ (w.Meets c → (w.call c).1.Kept) :=
    ⟨iff_of_true hgood.1 hm, fun _ => hgood.2⟩
  have hcontext {c : Call} (hobjects : (w.call c).1.objects = w.objects)
      (hmodel : (w.call c).1.model = w.model) (hisModel : (w.call c).1.isModel = w.isModel)
      (hc : ∀ k src loaded, c ≠ .load k src loaded) : w.Good c ∧ (w.call c).1.Kept :=
    h.good_unchanged hobjects hmodel hisModel fun k src loaded heq => absurd heq (hc k src loaded)
  cases c with
  | construct k => exact hfine (good_construct h hv) trivial
  | constructLoaded k loaded => exact hfine (good_constructLoaded h hv loaded) trivial
  | moveConstruct k other => exact hfine (good_moveConstruct h hv.1 hv.2) trivial
  | load k src loaded => exact good_load h hv src loaded
  | free k => exact hfine (good_free h hv) trivial
  | destroy k => exact hfine (good_destroy h) trivial
  | constructContext ctx =>
      exact hfine (hcontext rfl rfl rfl fun _ _ _ heq => by cases heq) trivial
  | constructContextFrom ctx k made =>
      exact hfine (hcontext rfl rfl rfl fun _ _ _ heq => by cases heq) trivial
  | init ctx k made => exact hfine (hcontext rfl rfl rfl fun _ _ _ heq => by cases heq) trivial
  | destroyContext ctx =>
      exact hfine (hcontext rfl rfl rfl fun _ _ _ heq => by cases heq) trivial
  | getModel ctx k => exact good_getModel h hv.2

end

/-! ## Runs -/

theorem kept_new : World.new.Kept where
  sound := ⟨owned_empty (), fun _ _ => rfl⟩
  held a h := absurd h.1 (Nat.not_lt_zero a)

/-- **Every call of a run is good exactly if** each of them meets its
condition. -/
theorem run_sound_iff (tr : List Call) (w : World) :
    (llamaLts.guarded World.Good).Run tr w ↔ (llamaLts.guarded World.Meets).Run tr w := by
  refine Lts.Run.guarded_congr (I := World.Kept) ?_ ?_ ?_
  · rintro w rfl
    exact kept_new
  · rintro w c w' h ⟨hv, -⟩
    exact (good_iff_meets h hv).1
  · rintro w c w' h ⟨hv, rfl⟩ hm
    exact (good_iff_meets h hv).2 hm

theorem run_call {tr : List Call} {w : World} (h : llamaLts.Run tr w) (c : Call)
    (hv : w.Valid c) : llamaLts.Run (tr ++ [c]) (w.call c).1 := h.snoc ⟨hv, rfl⟩

/-- What a run of good calls comes to. -/
theorem sound_of_good {tr : List Call} {w : World}
    (h : (llamaLts.guarded World.Good).Run tr w) : w.Sound := by
  refine Lts.Run.guarded_post (I := World.Sound) ?_ ?_ h
  · rintro w rfl
    exact kept_new.sound
  · rintro w c w' ⟨-, rfl⟩ hgood
    exact hgood.sound

/-- A `load` that fails on a model that was loaded, and the destructor:
the old model is freed twice. -/
theorem run_free_twice :
    ∃ w, llamaLts.Run ([.constructLoaded 0 true] ++ [.load 0 (.file true) false] ++
        [.destroy 0]) w ∧ w.objects.deletes 0 = 2 ∧
      ¬ (llamaLts.guarded World.Good).Run ([.constructLoaded 0 true] ++
        [.load 0 (.file true) false] ++ [.destroy 0]) w := by
  have hloaded := run_call (run_call (.start rfl) (.constructLoaded 0 true) rfl)
    (.load 0 (.file true) false) rfl
  refine ⟨_, run_call hloaded (.destroy 0) rfl, rfl, fun hg => ?_⟩
  have honce := (sound_of_good hg).owned.once 0
  revert honce
  decide

end HighJump.Ai.LlamaModel
