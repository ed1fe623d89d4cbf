/-
HighJump.Ai.VectorIndexSaveTheorems — a file that `save_s` writes is the
old one or the new one, whatever is killed and when.

Every step but a start and a rename is `Local`: it touches the temporary
file of its own call and nothing else. So one lemma serves nine of the
steps, and the rename is the only one that reaches a path the users know.
-/
import HighJump.Ai.VectorIndexSave

namespace HighJump.Ai.VectorIndexSave

open HighJump.Lib

section

variable {ι : Type} {F : Faiss ι} {tr : List (Event ι)} {s s' : State ι} {i : Nat} {sv : Save ι}

/-! ## Histories -/

@[simp] theorem temps_snoc (tr : List (Event ι)) (a : Event ι) :
    temps (tr ++ [a]) = temps tr ++ temps [a] := by
  simp [temps, List.filterMap_append]

@[simp] theorem saved_snoc (tr : List (Event ι)) (a : Event ι) :
    saved (tr ++ [a]) = saved tr ++ saved [a] := by
  simp [saved, List.filterMap_append]

theorem lastSaved_of_nil {a : Event ι} (h : saved [a] = []) (path : String) :
    lastSaved (tr ++ [a]) path = lastSaved tr path := by
  simp [lastSaved, h]

/-- A rename is the last one to its own path and to no other. -/
theorem lastSaved_renamed (tr : List (Event ι)) (i : Nat) (sv : Save ι) (path : String) :
    lastSaved (tr ++ [.renamed i sv]) path
      = if sv.filename = path then some sv else lastSaved tr path := by
  by_cases h : sv.filename = path <;> simp [lastSaved, saved, h]

theorem mem_saved_renamed (tr : List (Event ι)) (i : Nat) (sv sv' : Save ι) :
    sv' ∈ saved (tr ++ [.renamed i sv]) ↔ sv' ∈ saved tr ∨ sv' = sv := by
  simp [saved]

/-! ## The parts of a state -/

theorem at_calls_self (s : State ι) (i : Nat) (p : Phase ι) : (s.at i p).calls i = p := by
  simp [State.at]

theorem at_calls_of_ne (s : State ι) (p : Phase ι) {i j : Nat} (h : j ≠ i) :
    (s.at i p).calls j = s.calls j := by
  simp [State.at, h]

@[simp] theorem at_files (s : State ι) (i : Nat) (p : Phase ι) : (s.at i p).files = s.files := rfl

/-! ## The temporary file of a call -/

/-- What a call knows of its temporary file. -/
def Phase.Holds (F : Faiss ι) (files : String → Option (List UInt8)) : Phase ι → Prop
  | .writing sv n => files sv.tempFile = some ((F.writeIndex sv.index).take n)
  | .written sv | .checked sv => ∃ n, files sv.tempFile = some ((F.writeIndex sv.index).take n)
  | .verified sv =>
      files sv.tempFile = some (F.writeIndex sv.index) ∧
        ∃ y ∈ F.readIndex (F.writeIndex sv.index), F.ntotal y = F.ntotal sv.index
  | .idle | .named _ | .failing _ => True

/-- It is about that file alone. -/
theorem Phase.Holds.congr {files files' : String → Option (List UInt8)} {p : Phase ι}
    (h : p.Holds F files) (hsame : ∀ sv ∈ p.save?, files' sv.tempFile = files sv.tempFile) :
    p.Holds F files' := by
  cases p with
  | idle => trivial
  | named sv => trivial
  | failing sv => trivial
  | writing sv n => simpa [Phase.Holds, hsame sv rfl] using h
  | written sv => simpa [Phase.Holds, hsame sv rfl] using h
  | checked sv => simpa [Phase.Holds, hsame sv rfl] using h
  | verified sv => simpa [Phase.Holds, hsame sv rfl] using h

/-- A file that is read as an index of the right size was not cut off. -/
theorem complete_of_read (hF : F.RejectsTorn) {n : Nat} {y : ι}
    (hread : y ∈ F.readIndex ((F.writeIndex sv.index).take n))
    (hsize : F.ntotal y = F.ntotal sv.index) :
    (F.writeIndex sv.index).take n = F.writeIndex sv.index := by
  apply List.take_of_length_le
  by_contra hlt
  exact hF sv.index n (Nat.lt_of_not_le hlt) y hread hsize

/-- The two checks pass on complete files only. -/
theorem holds_verified (hF : F.RejectsTorn) (h : (Phase.checked sv).Holds F s.files) :
    (if F.mismatch sv (s.files sv.tempFile) then Phase.failing sv else .verified sv).Holds F
      s.files := by
  obtain ⟨n, hn⟩ := h
  rw [hn]
  cases hread : F.readIndex ((F.writeIndex sv.index).take n) with
  | none => simp [Faiss.mismatch, hread, Phase.Holds]
  | some y =>
    by_cases hsize : F.ntotal y = F.ntotal sv.index
    · have hfull := complete_of_read hF (Option.mem_def.2 hread) hsize
      rw [hfull] at hn hread
      simp [Faiss.mismatch, hfull, hread, hsize, Phase.Holds, hn]
    · simp [Faiss.mismatch, hread, hsize, Phase.Holds]

/-! ## The calls side by side -/

/-- What all the calls have done to the files so far. -/
structure Inv (F : Faiss ι) (files : String → Option (List UInt8)) (tr : List (Event ι))
    (s : State ι) : Prop where
  used : ∀ i, ∀ sv ∈ (s.calls i).save?, sv.tempFile ∈ temps tr
  apart : ∀ i j, ∀ sv ∈ (s.calls i).save?, ∀ sv' ∈ (s.calls j).save?, i ≠ j →
    sv.tempFile ≠ sv'.tempFile ∧ sv.tempFile ≠ sv'.filename
  holds : ∀ i, (s.calls i).Holds F s.files
  placed : ∀ path, path ∉ temps tr →
    s.files path = match lastSaved tr path with
      | some sv => some (F.writeIndex sv.index)
      | none => files path
  read : ∀ sv ∈ saved tr,
    ∃ y ∈ F.readIndex (F.writeIndex sv.index), F.ntotal y = F.ntotal sv.index
  known : ∀ path, s.files path ≠ none →
    files path ≠ none ∨ (∃ sv ∈ saved tr, sv.filename = path) ∨ path ∈ s.stranded ∨
      ∃ i, ∃ sv ∈ (s.calls i).save?, sv.tempFile = path

/-- Call `i`, which is about `sv`, goes on to `p` and touches no file but
its temporary one. -/
structure Local (F : Faiss ι) (s s' : State ι) (i : Nat) (sv : Save ι) (p : Phase ι) : Prop where
  before : (s.calls i).save? = some sv
  calls : s'.calls = Function.update s.calls i p
  after : ∀ sv' ∈ p.save?, sv' = sv
  files : ∀ path, path ≠ sv.tempFile → s'.files path = s.files path
  holds : p.Holds F s'.files
  left : s'.files sv.tempFile = none ∨ sv.tempFile ∈ s'.stranded ∨ p.save? = some sv
  stranded : s.stranded ⊆ s'.stranded

variable {files : String → Option (List UInt8)} {p : Phase ι}

/-- What is under way behind a step of call `i` was under way before it. -/
theorem Local.save_before (hl : Local F s s' i sv p) {j : Nat} {sv' : Save ι}
    (h : sv' ∈ (s'.calls j).save?) : sv' ∈ (s.calls j).save? := by
  rw [hl.calls] at h
  by_cases hj : j = i
  · subst hj
    rw [Function.update_self] at h
    rw [hl.after sv' h]
    exact hl.before
  · rwa [Function.update_of_ne hj] at h

theorem Inv.local (h : Inv F files tr s) {a : Event ι} (htemps : temps [a] = [])
    (hsaved : saved [a] = []) (hl : Local F s s' i sv p) : Inv F files (tr ++ [a]) s' where
  used j sv' hsv' := by simpa [htemps] using h.used j sv' (hl.save_before hsv')
  apart j k sv₁ h₁ sv₂ h₂ := h.apart j k sv₁ (hl.save_before h₁) sv₂ (hl.save_before h₂)
  holds j := by
    by_cases hj : j = i
    · subst hj
      simpa [hl.calls] using hl.holds
    · rw [hl.calls, Function.update_of_ne hj]
      refine (h.holds j).congr fun sv' hsv' => hl.files _ ?_
      exact (h.apart j i sv' hsv' sv hl.before hj).1
  placed path hpath := by
    simp only [temps_snoc, htemps, List.append_nil] at hpath
    rw [lastSaved_of_nil hsaved, hl.files path, h.placed path hpath]
    intro heq
    exact hpath (heq ▸ h.used i sv hl.before)
  read sv' hsv' := h.read sv' (by simpa [hsaved] using hsv')
  known path hpath := by
    simp only [saved_snoc, hsaved, List.append_nil]
    by_cases heq : path = sv.tempFile
    · subst heq
      rcases hl.left with hnone | hmem | hsave
      · exact absurd hnone hpath
      · exact .inr (.inr (.inl hmem))
      · exact .inr (.inr (.inr ⟨i, sv, by simpa [hl.calls] using hsave, rfl⟩))
    · rw [hl.files path heq] at hpath
      rcases h.known path hpath with hold | hsv | hmem | ⟨j, sv', hsv', hpath'⟩
      · exact .inl hold
      · exact .inr (.inl hsv)
      · exact .inr (.inr (.inl (hl.stranded hmem)))
      · have hj : j ≠ i := by
          rintro rfl
          rw [Option.mem_def, hl.before, Option.some.injEq] at hsv'
          exact heq (by rw [← hpath', hsv'])
        exact .inr (.inr (.inr ⟨j, sv', by rwa [hl.calls, Function.update_of_ne hj], hpath'⟩))

/-- A call that starts owns no file yet. -/
theorem Inv.start (h : Inv F files tr s) (hidle : s.calls i = .idle)
    (hapart : Apart s (.start i sv)) :
    Inv F files (tr ++ [.start i sv]) (s.at i (.named sv)) where
  used j sv' hsv' := by
    by_cases hj : j = i
    · subst hj
      simp [at_calls_self, Phase.save?] at hsv'
      simp [temps, hsv']
    · rw [at_calls_of_ne s _ hj] at hsv'
      simp [h.used j sv' hsv']
  apart j k sv₁ h₁ sv₂ h₂ hjk := by
    by_cases hj : j = i
    · subst hj
      rw [at_calls_of_ne s _ (Ne.symm hjk)] at h₂
      simp [at_calls_self, Phase.save?] at h₁
      subst h₁
      exact ⟨(hapart k sv₂ h₂).1, (hapart k sv₂ h₂).2.1⟩
    · rw [at_calls_of_ne s _ hj] at h₁
      by_cases hk : k = i
      · subst hk
        simp [at_calls_self, Phase.save?] at h₂
        subst h₂
        exact ⟨((hapart j sv₁ h₁).1).symm, (hapart j sv₁ h₁).2.2⟩
      · rw [at_calls_of_ne s _ hk] at h₂
        exact h.apart j k sv₁ h₁ sv₂ h₂ hjk
  holds j := by
    by_cases hj : j = i
    · simp [hj, at_calls_self, Phase.Holds]
    · simpa [at_calls_of_ne s _ hj] using h.holds j
  placed path hpath := by
    rw [lastSaved_of_nil (by simp [saved])]
    exact h.placed path fun hmem => hpath (by simp [hmem])
  read sv' hsv' := h.read sv' (by simpa [saved] using hsv')
  known path hpath := by
    rcases h.known path hpath with hold | ⟨sv', hsv', hpath'⟩ | hmem | ⟨j, sv', hsv', hpath'⟩
    · exact .inl hold
    · exact .inr (.inl ⟨sv', by simp [hsv'], hpath'⟩)
    · exact .inr (.inr (.inl hmem))
    · have hj : j ≠ i := by
        rintro rfl
        simp [hidle, Phase.save?] at hsv'
      exact .inr (.inr (.inr ⟨j, sv', by rwa [at_calls_of_ne s _ hj], hpath'⟩))

theorem rename_files (s : State ι) (sv : Save ι) (path : String) (hne : path ≠ sv.tempFile) :
    (s.rename sv).files path
      = if path = sv.filename then s.files sv.tempFile else s.files path := by
  by_cases h : path = sv.filename
  · subst h
    simp [State.rename, State.put, hne]
  · simp [State.rename, State.put, hne, h]

/-- The rename puts the whole index in place. -/
theorem Inv.renamed (h : Inv F files tr s) (hphase : s.calls i = .verified sv) :
    Inv F files (tr ++ [.renamed i sv]) ((s.rename sv).at i .idle) := by
  have hsave : (s.calls i).save? = some sv := by simp [hphase, Phase.save?]
  obtain ⟨hfull, hread⟩ : (Phase.verified sv).Holds F s.files := hphase ▸ h.holds i
  have hother : ∀ j sv', sv' ∈ (((s.rename sv).at i .idle).calls j).save? →
      j ≠ i ∧ sv' ∈ (s.calls j).save? := by
    intro j sv' hsv'
    by_cases hj : j = i
    · simp [hj, at_calls_self, Phase.save?] at hsv'
    · rw [at_calls_of_ne _ _ hj] at hsv'
      exact ⟨hj, hsv'⟩
  constructor
  case used =>
    intro j sv' hsv'
    simp [h.used j sv' (hother j sv' hsv').2]
  case apart =>
    intro j k sv₁ h₁ sv₂ h₂ hjk
    exact h.apart j k sv₁ (hother j sv₁ h₁).2 sv₂ (hother k sv₂ h₂).2 hjk
  case holds =>
    intro j
    by_cases hj : j = i
    · simp [hj, at_calls_self, Phase.Holds]
    · have hcalls : ((s.rename sv).at i .idle).calls j = s.calls j := at_calls_of_ne _ _ hj
      rw [hcalls, at_files]
      refine (h.holds j).congr fun sv' hsv' => ?_
      obtain ⟨htemp, hname⟩ := h.apart j i sv' hsv' sv hsave hj
      have hfiles := rename_files s sv sv'.tempFile htemp
      rwa [if_neg hname] at hfiles
  case placed =>
    intro path hpath
    have hmem : path ∉ temps tr := fun hmem => hpath (by simp [hmem])
    have hne : path ≠ sv.tempFile := by
      rintro rfl
      exact hmem (h.used i sv hsave)
    rw [at_files, rename_files s sv path hne, lastSaved_renamed]
    by_cases heq : path = sv.filename
    · simp [heq, hfull]
    · rw [if_neg heq, if_neg (Ne.symm heq)]
      exact h.placed path hmem
  case read =>
    intro sv' hsv'
    rcases (mem_saved_renamed tr i sv sv').1 hsv' with hold | rfl
    · exact h.read sv' hold
    · exact hread
  case known =>
    intro path hpath
    by_cases hne : path = sv.tempFile
    · simp [State.at, State.rename, State.put, hne] at hpath
    rw [at_files, rename_files s sv path hne] at hpath
    by_cases heq : path = sv.filename
    · exact .inr (.inl ⟨sv, by simp [saved], heq.symm⟩)
    rw [if_neg heq] at hpath
    rcases h.known path hpath with hold | ⟨sv', hsv', hpath'⟩ | hmem | ⟨j, sv', hsv', hpath'⟩
    · exact .inl hold
    · exact .inr (.inl ⟨sv', by simp [hsv'], hpath'⟩)
    · exact .inr (.inr (.inl hmem))
    · have hj : j ≠ i := by
        rintro rfl
        rw [Option.mem_def, hsave, Option.some.injEq] at hsv'
        exact hne (by rw [← hpath', hsv'])
      exact .inr (.inr (.inr ⟨j, sv', by rwa [at_calls_of_ne _ _ hj], hpath'⟩))

/-! ## Steps and runs -/

/-- A step that changes the phase of a call and no file. -/
theorem Local.phase (hbefore : (s.calls i).save? = some sv) (hafter : p.save? = some sv)
    (hholds : p.Holds F s.files) : Local F s (s.at i p) i sv p where
  before := hbefore
  calls := rfl
  after sv' hsv' := by simpa [hafter, eq_comm] using hsv'
  files _ _ := rfl
  holds := hholds
  left := .inr (.inr hafter)
  stranded := List.Subset.refl _

/-- A step that writes to the temporary file. -/
theorem Local.write (hbefore : (s.calls i).save? = some sv) (hafter : p.save? = some sv)
    {content : Option (List UInt8)}
    (hholds : p.Holds F (Function.update s.files sv.tempFile content)) :
    Local F s ((s.put sv.tempFile content).at i p) i sv p where
  before := hbefore
  calls := rfl
  after sv' hsv' := by simpa [hafter, eq_comm] using hsv'
  files path hne := by simp [State.at, State.put, hne]
  holds := hholds
  left := .inr (.inr hafter)
  stranded := List.Subset.refl _

/-- A call that ends without looking after its temporary file. -/
theorem Local.strand (hbefore : (s.calls i).save? = some sv) :
    Local F s ({ s with stranded := s.stranded ++ [sv.tempFile] }.at i .idle) i sv .idle where
  before := hbefore
  calls := rfl
  after sv' hsv' := by simp [Phase.save?] at hsv'
  files _ _ := rfl
  holds := trivial
  left := .inr (.inl (by simp [State.at]))
  stranded _ hpath := by simp [State.at, hpath]

theorem Local.giveUp (hbefore : (s.calls i).save? = some sv) :
    Local F s ((s.giveUp sv).at i .idle) i sv .idle where
  before := hbefore
  calls := rfl
  after sv' hsv' := by simp [Phase.save?] at hsv'
  files path hne := by simp [State.at, State.giveUp, State.put, hne]
  holds := trivial
  left := .inl (by simp [State.at, State.giveUp, State.put])
  stranded := List.Subset.refl _

theorem Inv.step (hF : F.RejectsTorn) {a : Event ι} (h : Inv F files tr s) (ha : Apart s a)
    (hs : Step F s a s') : Inv F files (tr ++ [a]) s' := by
  have hholds := h.holds
  cases hs with
  | noIndex =>
    refine ⟨?_, h.apart, h.holds, ?_, ?_, ?_⟩
    · simpa [temps] using h.used
    · intro path hpath
      rw [lastSaved_of_nil (by simp [saved])]
      exact h.placed path (by simpa [temps] using hpath)
    · simpa [saved] using h.read
    · simpa [saved] using h.known
  | start hidle => exact h.start hidle ha
  | renamed hphase => exact h.renamed hphase
  | @opened i sv hphase =>
    exact h.local rfl rfl (.write (by simp [hphase, Phase.save?]) rfl (by simp [Phase.Holds]))
  | @wrote i n k sv hphase =>
    exact h.local rfl rfl (.write (by simp [hphase, Phase.save?]) rfl (by simp [Phase.Holds]))
  | @closed i n sv hphase =>
    have hn : (Phase.writing sv n).Holds F s.files := hphase ▸ hholds i
    exact h.local rfl rfl (.phase (by simp [hphase, Phase.save?]) rfl ⟨n, hn⟩)
  | @checked i sv hphase =>
    have hn : (Phase.written sv).Holds F s.files := hphase ▸ hholds i
    refine h.local (p := if emptyFile (s.files sv.tempFile) then .failing sv else .checked sv)
      rfl rfl (.phase (by rw [hphase]; rfl) ?_ ?_)
    · split <;> rfl
    · split
      · trivial
      · exact hn
  | @verified i sv hphase =>
    have hn : (Phase.checked sv).Holds F s.files := hphase ▸ hholds i
    refine h.local rfl rfl (.phase (by rw [hphase]; rfl) ?_ (holds_verified hF hn))
    split <;> rfl
  | threw hsave hphase => exact h.local rfl rfl (.phase hsave rfl trivial)
  | gaveUp hphase => exact h.local rfl rfl (.giveUp (by simp [hphase, Phase.save?]))
  | removeThrew hphase => exact h.local rfl rfl (.strand (by simp [hphase, Phase.save?]))
  | killed hsave => exact h.local rfl rfl (.strand hsave)

theorem run_inv (hF : F.RejectsTorn) (h : ((lts F files).guarded Apart).Run tr s) :
    Inv F files tr s := by
  induction h with
  | start hi =>
    obtain rfl := hi
    refine ⟨?_, ?_, fun _ => trivial, fun _ _ => rfl, ?_, fun _ hp => .inl hp⟩ <;>
      simp [Phase.save?, saved]
  | snoc _ hs ih => exact ih.step hF hs.1 hs.2

/-- However many calls of `save_s` run side by side, and wherever they
throw or are killed: a file that none of them used as its temporary file
holds what the last rename put there, which is the whole of an index that
was read back, or is as it was. Any file there is was there before, is
one that was saved, or is the temporary file of a call that is under way
or did not get to remove it. -/
theorem saves_atomic (F : Faiss ι) (hF : F.RejectsTorn) (files : String → Option (List UInt8))
    {tr : List (Event ι)} {s : State ι} (h : ((lts F files).guarded Apart).Run tr s) :
    (∀ path, path ∉ temps tr →
      s.files path = match lastSaved tr path with
        | some sv => some (F.writeIndex sv.index)
        | none => files path) ∧
      (∀ sv ∈ saved tr,
        ∃ y ∈ F.readIndex (F.writeIndex sv.index), F.ntotal y = F.ntotal sv.index) ∧
      ∀ path, s.files path ≠ none →
        files path ≠ none ∨ (∃ sv ∈ saved tr, sv.filename = path) ∨ path ∈ s.stranded ∨
          ∃ i, ∃ sv ∈ (s.calls i).save?, sv.tempFile = path :=
  have hinv := run_inv hF h
  ⟨hinv.placed, hinv.read, hinv.known⟩

end

/-! ## A save that is killed -/

theorem apart_of_idle {ι : Type} {s : State ι} (h : ∀ j, s.calls j = .idle) (i : Nat)
    (sv : Save ι) : Apart s (.start i sv) := by
  intro j sv' hsv'
  simp [h j, Phase.save?] at hsv'

/-- An index of one vector, with a byte behind it that says it is whole. -/
def oneVector : Faiss UInt8 where
  writeIndex x := [x, 0]
  readIndex
    | [x, 0] => some x
    | _ => none
  ntotal _ := 1

/-- Two saves of one file side by side: the first is killed half way, the
second comes through. -/
def killedTrace : List (Event UInt8) :=
  [.start 0 ⟨7, "a", 5⟩, .opened 0, .start 1 ⟨9, "a", 6⟩, .wrote 0 1, .opened 1, .wrote 1 2,
    .killed 0, .closed 1, .checked 1, .verified 1, .renamed 1 ⟨9, "a", 6⟩]

theorem killed_run : ∃ s, ((lts oneVector fun _ => none).guarded Apart).Run killedTrace s := by
  have h0 : ((lts oneVector fun _ => none).guarded Apart).Run [] _ := .start rfl
  have h1 := h0.snocGuarded (@Step.start _ oneVector _ 0 ⟨7, "a", 5⟩ rfl)
    (apart_of_idle (fun _ => rfl) _ _)
  have h2 := h1.snocGuarded (@Step.opened _ oneVector _ 0 _ rfl) trivial
  -- the names differ in what the clock counts
  have h3 := h2.snocGuarded (@Step.start _ oneVector _ 1 ⟨9, "a", 6⟩ rfl) (by
    intro j sv' hsv'
    by_cases hj : j = 0
    · subst hj
      obtain rfl := Option.some.inj hsv'
      decide
    · simp [State.at, State.put, hj, Phase.save?] at hsv')
  have h4 := h3.snocGuarded (@Step.wrote _ oneVector _ 0 _ 1 _ rfl) trivial
  have h5 := h4.snocGuarded (@Step.opened _ oneVector _ 1 _ rfl) trivial
  have h6 := h5.snocGuarded (@Step.wrote _ oneVector _ 1 _ 2 _ rfl) trivial
  have h7 := h6.snocGuarded (@Step.killed _ oneVector _ 0 _ rfl) trivial
  have h8 := h7.snocGuarded (@Step.closed _ oneVector _ 1 _ _ rfl) trivial
  have h9 := h8.snocGuarded (@Step.checked _ oneVector _ 1 _ rfl) trivial
  have h10 := h9.snocGuarded (@Step.verified _ oneVector _ 1 _ rfl) trivial
  exact ⟨_, h10.snocGuarded (@Step.renamed _ oneVector _ 1 ⟨9, "a", 6⟩ rfl) trivial⟩

theorem saves_atomic_killed :
    ∃ s, ((lts oneVector fun _ => none).guarded Apart).Run killedTrace s ∧
      s.files "a" = some [9, 0] := by
  have hF : oneVector.RejectsTorn := by
    intro x n hn y hy
    have hn : n = 0 ∨ n = 1 := by
      simp only [oneVector, List.length_cons, List.length_nil] at hn
      omega
    rcases hn with rfl | rfl <;> simp [oneVector] at hy
  obtain ⟨s, hrun⟩ := killed_run
  refine ⟨s, hrun, ?_⟩
  rw [(saves_atomic oneVector hF (fun _ => none) hrun).1 "a" (by decide)]
  rfl

end HighJump.Ai.VectorIndexSave
