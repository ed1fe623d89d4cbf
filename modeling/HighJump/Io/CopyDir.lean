/-
HighJump.Io.CopyDir — `filepath::copy_dir` (`hj/io/filepath.hpp`), which
copies a directory into another place, where there may be something.

A file system is what stands at each path, a file or a directory; the
directory that is copied is part of it. There are no symbolic links. A path
is made only where there is nothing, by `create_directory` and `copy_file`
alike, and where the system lets it be made; else both throw, nothing is
made, and `copy_dir` returns `false`. What the system answers is data of
the call (`Sys`).

The theorems are about a copy that does not overlap what is copied
(`Source.apart`): a directory that is copied into itself is read while it
is written. Without overlap the result is a merge (`copyDir_merges`): what
was there stays, what was not is copied, and `copy_dir` returns `true` if
and only if nothing was in the way. `Merged` says so of one part of a
directory, and a copy is put together from such parts (`Merged.seq`,
`Merged.stop`).
-/
import HighJump.Lib.Loop
import Mathlib.Data.List.Induction
import Mathlib.Logic.Function.Basic

namespace HighJump.Io.CopyDir

open HighJump.Lib

abbrev Path := List String

inductive Kind where
  | dir
  | file (content : List UInt8)
  deriving DecidableEq, Repr

/-- What stands at each path. -/
abbrev Fs := Path → Option Kind

/-- What the operating system answers: the names that `directory_iterator`
delivers, if it can be opened; whether a path may be made; and whether a
file can be read. -/
structure Sys where
  list : Path → Option (List String)
  allowed : Path → Bool
  readable : Path → Bool

/-- `create_directory(p)`, and what `copy_file(.., p)` does there; `none` is
an exception. -/
def Fs.make (sys : Sys) (fs : Fs) (p : Path) (k : Kind) : Option Fs :=
  if fs p = none ∧ fs p.dropLast = some .dir ∧ sys.allowed p = true then
    some (Function.update fs p (some k))
  else none

/-- `if(!exists(f_to)) create_directory(f_to);` -/
def Fs.ensureDir (sys : Sys) (fs : Fs) (p : Path) : Option Fs :=
  if fs p = none then fs.make sys p .dir else some fs

/-- `copy_file(entry, dest)` -/
def Fs.copyFile (sys : Sys) (fs : Fs) (entry dest : Path) : Option Fs :=
  match fs entry with
  | some (.file content) => if sys.readable entry then fs.make sys dest (.file content) else none
  | _ => none

/-- One turn of the loop over the directory; `copySub` is `copy_dir` for an
entry that is a directory. -/
def copyEntry (sys : Sys) (copySub : Path → Path → Fs → Option (Bool × Fs)) (src dst : Path)
    (name : String) (fs : Fs) : Option (Bool × Fs) :=
  if fs (src ++ [name]) = some .dir then copySub (src ++ [name]) (dst ++ [name]) fs
  else
    match fs.copyFile sys (src ++ [name]) (dst ++ [name]) with
    | none => some (false, fs)
    | some fs => some (true, fs)

/-- The loop, in front of these entries. -/
def copyEntries (sys : Sys) (copySub : Path → Path → Fs → Option (Bool × Fs)) (src dst : Path) :
    List String → Fs → Option (Bool × Fs)
  | [], fs => some (true, fs)
  | name :: rest, fs =>
      match copyEntry sys copySub src dst name fs with
      | none => none
      | some (false, fs) => some (false, fs)
      | some (true, fs) => copyEntries sys copySub src dst rest fs

/-- `copy_dir(from, to)`, as deep as there is fuel. -/
def copyDir (sys : Sys) : Nat → Path → Path → Fs → Option (Bool × Fs)
  | 0, _, _, _ => none
  | fuel + 1, src, dst, fs =>
      if fs src = some .dir then
        match fs.ensureDir sys dst with
        | none => some (false, fs)
        | some fs =>
            match sys.list src with
            | none => some (false, fs)
            | some names => copyEntries sys (copyDir sys fuel) src dst names fs
      else some (false, fs)

/-! ## The directory that is copied -/

/-- What is to stand below the destination. -/
abbrev Tree := Path → Option Kind

/-- A directory of less than `depth` levels. What stands in it stands in
directories, and those that can be listed are listed completely. -/
structure Tree.Listed (sys : Sys) (src : Path) (depth : Nat) (tree : Tree) : Prop where
  root : tree [] = some .dir
  bounded : ∀ rel, depth ≤ rel.length → tree rel = none
  parent : ∀ rel name, tree (rel ++ [name]) ≠ none → tree rel = some .dir
  nodup : ∀ rel names, sys.list (src ++ rel) = some names → names.Nodup
  complete : ∀ rel names, sys.list (src ++ rel) = some names →
    ∀ name, name ∈ names ↔ tree (rel ++ [name]) ≠ none

/-- What stands below an entry. -/
def Tree.sub (tree : Tree) (name : String) : Tree := fun rel => tree (name :: rel)

/-- These entries, with what stands below them. -/
def Tree.only (tree : Tree) (names : List String) : Tree
  | [] => none
  | name :: rel => if name ∈ names then tree (name :: rel) else none

/-- The directory itself. -/
def Tree.root : Tree := fun rel => if rel = [] then some .dir else none

variable {sys : Sys} {src dst : Path} {depth : Nat} {tree tree₁ tree₂ : Tree} {fs fs' fs₁ fs₂ : Fs}

theorem Tree.Listed.sub (h : tree.Listed sys src (depth + 1)) {name : String}
    (hdir : tree [name] = some .dir) : (tree.sub name).Listed sys (src ++ [name]) depth where
  root := hdir
  bounded rel hrel := h.bounded (name :: rel) (Nat.succ_le_succ hrel)
  parent rel m := h.parent (name :: rel) m
  nodup rel names := by simpa using h.nodup (name :: rel) names
  complete rel names hnames m := h.complete (name :: rel) names (by simpa using hnames) m

/-- Below a file there is nothing. -/
theorem Tree.Listed.below (h : tree.Listed sys src depth) {rel q : Path}
    (hq : tree (rel ++ q) ≠ none) (hne : q ≠ []) : tree rel = some .dir := by
  induction q using List.reverseRecOn with
  | nil => exact absurd rfl hne
  | append_singleton q name ih =>
    have hdir := h.parent (rel ++ q) name (by rwa [List.append_assoc])
    by_cases hnil : q = []
    · rwa [hnil, List.append_nil] at hdir
    · exact ih (by simp [hdir]) hnil

theorem only_cons (tree : Tree) {name : String} {rest : List String} (hname : name ∉ rest)
    (rel : Path) (k : Kind) :
    tree.only (name :: rest) rel = some k ↔
      tree.only [name] rel = some k ∨ tree.only rest rel = some k := by
  cases rel with
  | nil => simp [Tree.only]
  | cons m q =>
    by_cases hm : m = name
    · subst hm
      simp [Tree.only, hname]
    · simp [Tree.only, hm]

/-- A directory is itself and all its entries. -/
theorem Tree.Listed.split (h : tree.Listed sys src depth) {names : List String}
    (hnames : sys.list src = some names) (rel : Path) (k : Kind) :
    tree rel = some k ↔ Tree.root rel = some k ∨ tree.only names rel = some k := by
  have hmem : ∀ name, name ∈ names ↔ tree [name] ≠ none := by
    simpa using h.complete [] names (by simpa using hnames)
  cases rel with
  | nil => simp [Tree.root, Tree.only, h.root]
  | cons m q =>
    simp only [Tree.root, Tree.only, List.cons_ne_nil, if_false, reduceCtorEq, false_or]
    by_cases hm : m ∈ names
    · rw [if_pos hm]
    · rw [if_neg hm]
      refine iff_of_false (fun hk => hm ((hmem m).mpr ?_)) nofun
      by_cases hq : q = []
      · subst hq
        simp [hk]
      · have hdir : tree [m] = some .dir := h.below (q := q) (by simp [hk]) hq
        simp [hdir]

/-! ## What is made -/

theorem make_eq_some {p : Path} {k : Kind} (h : fs.make sys p k = some fs') :
    fs p = none ∧ fs p.dropLast = some .dir ∧ sys.allowed p = true ∧
      fs' = Function.update fs p (some k) := by
  unfold Fs.make at h
  split at h
  · next hp =>
    cases h
    exact ⟨hp.1, hp.2.1, hp.2.2, rfl⟩
  · cases h

/-- What a step from `fs` to `fs'` may do: it keeps what is there, and
makes only what `made` says. -/
structure Grows (fs fs' : Fs) (made : Path → Kind → Prop) : Prop where
  kept : ∀ p k, fs p = some k → fs' p = some k
  new : ∀ p k, fs' p = some k → fs p = some k ∨ made p k

theorem Grows.refl (fs : Fs) (made : Path → Kind → Prop) : Grows fs fs made :=
  ⟨fun _ _ h => h, fun _ _ h => .inl h⟩

theorem Grows.trans {made made' made'' : Path → Kind → Prop} (h : Grows fs fs₁ made)
    (h' : Grows fs₁ fs₂ made') (hmade : ∀ p k, made p k → made'' p k)
    (hmade' : ∀ p k, made' p k → made'' p k) : Grows fs fs₂ made'' where
  kept p k hp := h'.kept p k (h.kept p k hp)
  new p k hp := by
    rcases h'.new p k hp with hp' | hm
    · rcases h.new p k hp' with hold | hm
      · exact .inl hold
      · exact .inr (hmade p k hm)
    · exact .inr (hmade' p k hm)

theorem Grows.mono {made made' : Path → Kind → Prop} (h : Grows fs fs' made)
    (hmade : ∀ p k, made p k → made' p k) : Grows fs fs' made' :=
  (Grows.refl fs made).trans h hmade hmade

/-- Elsewhere nothing changes. -/
theorem Grows.same {made : Path → Kind → Prop} (h : Grows fs fs' made) {p : Path}
    (hp : ∀ k, ¬ made p k) : fs' p = fs p := by
  cases hold : fs p with
  | some k => exact h.kept p k hold
  | none =>
    cases hnew : fs' p with
    | none => rfl
    | some k =>
      rcases h.new p k hnew with hsome | hm
      · rw [hold] at hsome
        cases hsome
      · exact absurd hm (hp k)

theorem grows_make {p : Path} {k : Kind} (h : fs.make sys p k = some fs') :
    Grows fs fs' fun q k' => q = p ∧ k' = k := by
  obtain ⟨hnone, -, -, rfl⟩ := make_eq_some h
  constructor
  · intro q k' hq
    have hne : q ≠ p := by
      rintro rfl
      rw [hnone] at hq
      cases hq
    rwa [Function.update_of_ne hne]
  · intro q k' hq
    by_cases hqp : q = p
    · subst hqp
      rw [Function.update_self, Option.some.injEq] at hq
      exact .inr ⟨rfl, hq.symm⟩
    · rw [Function.update_of_ne hqp] at hq
      exact .inl hq

theorem ensureDir_cases {p : Path} (h : fs.ensureDir sys p = some fs') :
    (fs p ≠ none ∧ fs' = fs) ∨ fs.make sys p .dir = some fs' := by
  unfold Fs.ensureDir at h
  split at h
  · exact .inr h
  · next hp =>
    cases h
    exact .inl ⟨hp, rfl⟩

theorem grows_ensureDir {p : Path} (h : fs.ensureDir sys p = some fs') :
    Grows fs fs' fun q k => q = p ∧ k = .dir := by
  rcases ensureDir_cases h with ⟨-, rfl⟩ | hmake
  · exact .refl _ _
  · exact grows_make hmake

/-- A file or a directory is made if nothing is there and its place is no
file. -/
theorem make_isSome {p : Path} {k : Kind} (hplace : fs p.dropLast ≠ none) (hnone : fs p = none)
    (hallowed : sys.allowed p = true) (hfile : ∀ c, fs p.dropLast ≠ some (.file c)) :
    fs.make sys p k ≠ none := by
  have hdir : fs p.dropLast = some .dir := by
    cases hk : fs p.dropLast with
    | none => exact absurd hk hplace
    | some kind =>
      cases kind with
      | dir => rfl
      | file c => exact absurd hk (hfile c)
  simp [Fs.make, hnone, hallowed, hdir]

/-! ## Parts of a copy -/

/-- Nothing is in the way of an entry: where there is to be a file, there
is nothing; what is not there yet can be made, in a place that is no file;
and what is to be copied can be read. -/
structure Fits (sys : Sys) (src dst : Path) (fs : Fs) (rel : Path) (k : Kind) : Prop where
  free : k ≠ .dir → fs (dst ++ rel) = none
  made : fs (dst ++ rel) = none →
    sys.allowed (dst ++ rel) = true ∧ ∀ c, fs (dst ++ rel).dropLast ≠ some (.file c)
  readable : k ≠ .dir → sys.readable (src ++ rel) = true
  listed : k = .dir → sys.list (src ++ rel) ≠ none

/-- What became of copying `tree`. -/
structure Merged (sys : Sys) (src dst : Path) (tree : Tree) (fs : Fs) (ok : Bool) (fs' : Fs) :
    Prop where
  grows : Grows fs fs' fun p k => ∃ rel, p = dst ++ rel ∧ tree rel = some k
  copied : ok = true → ∀ rel k, tree rel = some k → fs' (dst ++ rel) ≠ none
  ok_iff : ok = true ↔ ∀ rel k, tree rel = some k → Fits sys src dst fs rel k

/-- Only what stands at a place and above it matters. -/
theorem fits_congr {rel : Path} {k : Kind} (hat : fs' (dst ++ rel) = fs (dst ++ rel))
    (habove : ∀ c, fs' (dst ++ rel).dropLast = some (.file c) ↔
      fs (dst ++ rel).dropLast = some (.file c)) :
    Fits sys src dst fs' rel k ↔ Fits sys src dst fs rel k := by
  constructor
  · intro h
    refine ⟨fun hk => hat ▸ h.free hk, fun hn => ?_, h.readable, h.listed⟩
    exact ⟨(h.made (hat ▸ hn)).1, fun c hc => (h.made (hat ▸ hn)).2 c ((habove c).mpr hc)⟩
  · intro h
    refine ⟨fun hk => hat ▸ h.free hk, fun hn => ?_, h.readable, h.listed⟩
    exact ⟨(h.made (hat ▸ hn)).1, fun c hc => (h.made (hat ▸ hn)).2 c ((habove c).mp hc)⟩

/-- One part after another that does not touch it. -/
theorem Merged.seq {ok : Bool} (h₁ : Merged sys src dst tree₁ fs true fs₁)
    (h₂ : Merged sys src dst tree₂ fs₁ ok fs₂)
    (htree : ∀ rel k, tree rel = some k ↔ tree₁ rel = some k ∨ tree₂ rel = some k)
    (hfits : ∀ rel k, tree₂ rel = some k →
      (Fits sys src dst fs₁ rel k ↔ Fits sys src dst fs rel k)) :
    Merged sys src dst tree fs ok fs₂ where
  grows := h₁.grows.trans h₂.grows
    (fun _ k ⟨rel, hp, hrel⟩ => ⟨rel, hp, (htree rel k).mpr (.inl hrel)⟩)
    (fun _ k ⟨rel, hp, hrel⟩ => ⟨rel, hp, (htree rel k).mpr (.inr hrel)⟩)
  copied hok rel k hrel := by
    rcases (htree rel k).mp hrel with hrel | hrel
    · obtain ⟨k', hk'⟩ := Option.ne_none_iff_exists'.mp (h₁.copied rfl rel k hrel)
      simp [h₂.grows.kept _ k' hk']
    · exact h₂.copied hok rel k hrel
  ok_iff := by
    rw [h₂.ok_iff]
    constructor
    · intro h rel k hrel
      rcases (htree rel k).mp hrel with hrel | hrel
      · exact h₁.ok_iff.mp rfl rel k hrel
      · exact (hfits rel k hrel).mp (h rel k hrel)
    · exact fun h rel k hrel => (hfits rel k hrel).mpr (h rel k ((htree rel k).mpr (.inr hrel)))

/-- A part that fails ends the whole. -/
theorem Merged.stop (h : Merged sys src dst tree₁ fs false fs')
    (htree : ∀ rel k, tree₁ rel = some k → tree rel = some k) :
    Merged sys src dst tree fs false fs' where
  grows := h.grows.mono fun _ k ⟨rel, hp, hrel⟩ => ⟨rel, hp, htree rel k hrel⟩
  copied := nofun
  ok_iff := iff_of_false nofun fun hall =>
    Bool.false_ne_true (h.ok_iff.mpr fun rel k hrel => hall rel k (htree rel k hrel))

/-- The empty part. -/
theorem merged_nil : Merged sys src dst (tree.only []) fs true fs := by
  have hnone : ∀ rel, tree.only [] rel = none := by
    intro rel
    cases rel <;> simp [Tree.only]
  exact ⟨.refl _ _, fun _ rel k h => by simp [hnone] at h,
    iff_of_true rfl fun rel k h => by simp [hnone] at h⟩

/-- What was copied below an entry. -/
theorem Merged.entry {name : String} {ok : Bool}
    (h : Merged sys (src ++ [name]) (dst ++ [name]) (tree.sub name) fs ok fs') :
    Merged sys src dst (tree.only [name]) fs ok fs' := by
  have hone : ∀ rel k, tree.only [name] rel = some k ↔
      ∃ q, rel = name :: q ∧ tree.sub name q = some k := by
    intro rel k
    cases rel with
    | nil => simp [Tree.only]
    | cons m q =>
      by_cases hm : m = name
      · subst hm
        simp [Tree.only, Tree.sub]
      · simp [Tree.only, hm]
  have hfits : ∀ q k, Fits sys (src ++ [name]) (dst ++ [name]) fs q k ↔
      Fits sys src dst fs (name :: q) k := by
    intro q k
    constructor
    · intro hf
      exact ⟨by simpa using hf.free, by simpa using hf.made, by simpa using hf.readable,
        by simpa using hf.listed⟩
    · intro hf
      exact ⟨by simpa using hf.free, by simpa using hf.made, by simpa using hf.readable,
        by simpa using hf.listed⟩
  refine ⟨h.grows.mono ?_, ?_, ?_⟩
  · rintro p k ⟨q, rfl, hq⟩
    exact ⟨name :: q, by simp, (hone _ k).mpr ⟨q, rfl, hq⟩⟩
  · intro hok rel k hrel
    obtain ⟨q, rfl, hq⟩ := (hone rel k).mp hrel
    simpa using h.copied hok q k hq
  · rw [h.ok_iff]
    constructor
    · intro hall rel k hrel
      obtain ⟨q, rfl, hq⟩ := (hone rel k).mp hrel
      exact (hfits q k).mp (hall q k hq)
    · exact fun hall q k hq => (hfits q k).mpr (hall _ k ((hone _ k).mpr ⟨q, rfl, hq⟩))

/-! ## The loop and the recursion -/

/-- `tree` stands at `src`, and none of it in the place it is copied to. -/
structure Source (src dst : Path) (tree : Tree) (fs : Fs) : Prop where
  stands : ∀ rel, fs (src ++ rel) = tree rel
  apart : ∀ rel rel', src ++ rel ≠ dst ++ rel'

/-- A copy does not touch what it copies. -/
theorem Source.grows (h : Source src dst tree fs)
    (hg : Grows fs fs' fun p k => ∃ rel, p = dst ++ rel ∧ tree₁ rel = some k) :
    Source src dst tree fs' where
  stands rel := by
    rw [hg.same fun k hk => h.apart rel _ hk.choose_spec.1]
    exact h.stands rel
  apart := h.apart

theorem Source.sub (h : Source src dst tree fs) (name : String) :
    Source (src ++ [name]) (dst ++ [name]) (tree.sub name) fs where
  stands rel := by simpa [Tree.sub] using h.stands (name :: rel)
  apart rel rel' := by simpa using h.apart (name :: rel) (name :: rel')

theorem Tree.Listed.only_file (hl : tree.Listed sys src depth) {name : String}
    {content : List UInt8} (hfile : tree [name] = some (.file content)) (rel : Path) (k : Kind) :
    tree.only [name] rel = some k ↔ rel = [name] ∧ k = .file content := by
  cases rel with
  | nil => simp [Tree.only]
  | cons m q =>
    by_cases hm : m = name
    · subst hm
      by_cases hq : q = []
      · subst hq
        simp [Tree.only, hfile, eq_comm]
      · have hnone : tree (m :: q) = none := by
          by_contra hne
          have hdir : tree [m] = some .dir := hl.below (q := q) hne hq
          rw [hfile] at hdir
          cases hdir
        simp [Tree.only, hnone, hq]
    · simp [Tree.only, hm]

/-- A file is a part of its own. -/
theorem merged_copyFile (hl : tree.Listed sys src depth) (hs : Source src dst tree fs)
    (hdst : fs dst ≠ none) {name : String} {content : List UInt8}
    (hfile : tree [name] = some (.file content)) :
    match fs.copyFile sys (src ++ [name]) (dst ++ [name]) with
    | none => Merged sys src dst (tree.only [name]) fs false fs
    | some fs' => Merged sys src dst (tree.only [name]) fs true fs' := by
  have hone := hl.only_file hfile
  have hcopy : fs.copyFile sys (src ++ [name]) (dst ++ [name]) =
      if sys.readable (src ++ [name]) then fs.make sys (dst ++ [name]) (.file content)
      else none := by
    simp only [Fs.copyFile, hs.stands, hfile]
  cases hmake : fs.copyFile sys (src ++ [name]) (dst ++ [name]) with
  | none =>
    refine ⟨.refl _ _, nofun, iff_of_false nofun fun hall => ?_⟩
    have hfits := hall [name] _ ((hone _ _).mpr ⟨rfl, rfl⟩)
    have hnone := hfits.free nofun
    obtain ⟨hallowed, hplace⟩ := hfits.made hnone
    rw [hcopy, if_pos (hfits.readable nofun)] at hmake
    rw [List.dropLast_concat] at hplace
    exact make_isSome (by rwa [List.dropLast_concat]) hnone hallowed
      (by rwa [List.dropLast_concat]) hmake
  | some fs' =>
    rw [hcopy] at hmake
    split at hmake
    · next hread =>
      obtain ⟨hnone, hdir, hallowed, hfs'⟩ := make_eq_some hmake
      refine ⟨(grows_make hmake).mono ?_, ?_, iff_of_true rfl ?_⟩
      · rintro p k ⟨rfl, rfl⟩
        exact ⟨[name], rfl, (hone _ _).mpr ⟨rfl, rfl⟩⟩
      · intro _ rel k hrel
        obtain ⟨rfl, rfl⟩ := (hone rel k).mp hrel
        simp [hfs']
      · intro rel k hrel
        obtain ⟨rfl, rfl⟩ := (hone rel k).mp hrel
        exact ⟨fun _ => hnone, fun _ => ⟨hallowed, by rw [hdir]; nofun⟩, fun _ => hread, nofun⟩
    · cases hmake

/-- What is done inside of the entry `name` does not matter for the others. -/
theorem fits_others_iff {name : String} {rest : List String} (hname : name ∉ rest)
    (hg : Grows fs fs' fun p k => ∃ rel, p = dst ++ rel ∧ tree.only [name] rel = some k)
    {rel : Path} {k : Kind} (hrel : tree.only rest rel = some k) :
    Fits sys src dst fs' rel k ↔ Fits sys src dst fs rel k := by
  have hsame : ∀ q, (∀ q', q ≠ name :: q') → fs' (dst ++ q) = fs (dst ++ q) := by
    intro q hq
    refine hg.same fun k hk => ?_
    obtain ⟨rel', heq, hrel'⟩ := hk
    rw [← List.append_cancel_left heq] at hrel'
    cases q with
    | nil => simp [Tree.only] at hrel'
    | cons m q =>
      have hm : m ≠ name := fun hm => hq q (by rw [hm])
      simp [Tree.only, hm] at hrel'
  cases rel with
  | nil => simp [Tree.only] at hrel
  | cons m q =>
    have hm : m ≠ name := by
      rintro rfl
      simp [Tree.only, hname] at hrel
    have habove : fs' (dst ++ m :: q).dropLast = fs (dst ++ m :: q).dropLast := by
      rw [List.dropLast_append_of_ne_nil (List.cons_ne_nil m q)]
      refine hsame _ fun q' heq => ?_
      cases q with
      | nil => cases heq
      | cons x q =>
        rw [List.dropLast_cons_cons] at heq
        exact hm (List.cons.inj heq).1
    exact fits_congr (hsame _ fun q' heq => hm (List.cons.inj heq).1) fun c => by rw [habove]

/-- One turn of the loop, where `copy_dir` does what it is to do below. -/
theorem copyEntry_merged (hl : tree.Listed sys src depth) (hs : Source src dst tree fs)
    (hdst : fs dst ≠ none) {enough : Nat → Prop} {name : String} (hthere : tree [name] ≠ none)
    (hsub : tree [name] = some .dir → ∃ ok fs', (∀ fuel, enough fuel →
          copyDir sys fuel (src ++ [name]) (dst ++ [name]) fs = some (ok, fs')) ∧
        Merged sys (src ++ [name]) (dst ++ [name]) (tree.sub name) fs ok fs') :
    ∃ ok fs', (∀ fuel, enough fuel →
        copyEntry sys (copyDir sys fuel) src dst name fs = some (ok, fs')) ∧
      Merged sys src dst (tree.only [name]) fs ok fs' := by
  cases hk : tree [name] with
  | none => exact absurd hk hthere
  | some k =>
    cases k with
    | dir =>
      obtain ⟨ok, fs₁, hrun, hmerged⟩ := hsub hk
      refine ⟨ok, fs₁, fun fuel hfuel => ?_, hmerged.entry⟩
      rw [copyEntry, if_pos (by rw [hs.stands, hk]), hrun fuel hfuel]
    | file content =>
      have hmerged := merged_copyFile hl hs hdst hk
      have hfile : fs (src ++ [name]) ≠ some .dir := by
        rw [hs.stands, hk]
        nofun
      cases hcopy : fs.copyFile sys (src ++ [name]) (dst ++ [name]) with
      | none =>
        rw [hcopy] at hmerged
        exact ⟨false, fs, fun _ _ => by simp [copyEntry, hfile, hcopy], hmerged⟩
      | some fs₁ =>
        rw [hcopy] at hmerged
        exact ⟨true, fs₁, fun _ _ => by simp [copyEntry, hfile, hcopy], hmerged⟩

/-- The loop. The induction is on the entries in front of it, whose parts
are put together by `Merged.seq`. -/
theorem copyEntries_merged (hl : tree.Listed sys src depth) {enough : Nat → Prop}
    (hsub : ∀ name fs, tree [name] = some .dir → Source src dst tree fs → fs dst ≠ none →
      ∃ ok fs', (∀ fuel, enough fuel →
          copyDir sys fuel (src ++ [name]) (dst ++ [name]) fs = some (ok, fs')) ∧
        Merged sys (src ++ [name]) (dst ++ [name]) (tree.sub name) fs ok fs')
    (names : List String) (hnodup : names.Nodup) (hthere : ∀ name ∈ names, tree [name] ≠ none)
    (fs : Fs) (hs : Source src dst tree fs) (hdst : fs dst ≠ none) :
    ∃ ok fs', (∀ fuel, enough fuel →
        copyEntries sys (copyDir sys fuel) src dst names fs = some (ok, fs')) ∧
      Merged sys src dst (tree.only names) fs ok fs' := by
  induction names generalizing fs with
  | nil => exact ⟨true, fs, fun _ _ => rfl, merged_nil⟩
  | cons name rest ih =>
    obtain ⟨hname, hrest⟩ := List.nodup_cons.mp hnodup
    obtain ⟨ok, fs₁, hrun, hmerged⟩ := copyEntry_merged hl hs hdst (hthere name (by simp))
      fun hdir => hsub name fs hdir hs hdst
    cases ok with
    | false =>
      refine ⟨false, fs₁, fun fuel hfuel => by simp [copyEntries, hrun fuel hfuel], ?_⟩
      exact hmerged.stop fun rel k hrel => (only_cons tree hname rel k).mpr (.inl hrel)
    | true =>
      have hdst₁ : fs₁ dst ≠ none := by
        obtain ⟨k, hk⟩ := Option.ne_none_iff_exists'.mp hdst
        simp [hmerged.grows.kept dst k hk]
      obtain ⟨ok, fs₂, hloop, hmerged'⟩ := ih hrest (fun m hm => hthere m (by simp [hm])) fs₁
        (hs.grows hmerged.grows) hdst₁
      refine ⟨ok, fs₂, fun fuel hfuel => ?_, ?_⟩
      · simp [copyEntries, hrun fuel hfuel, hloop fuel hfuel]
      · exact hmerged.seq hmerged' (only_cons tree hname)
          fun rel k hrel => fits_others_iff hname hmerged.grows hrel

/-- The directory itself, where it is there or has just been made. -/
theorem merged_root (hens : fs.ensureDir sys dst = some fs₁) (hlist : sys.list src ≠ none) :
    Merged sys src dst Tree.root fs true fs₁ := by
  have hroot : ∀ rel k, Tree.root rel = some k ↔ rel = [] ∧ k = .dir := by
    intro rel k
    by_cases hrel : rel = [] <;> simp [Tree.root, hrel, eq_comm]
  have hmade : fs₁ dst ≠ none ∧ (fs dst = none →
      sys.allowed dst = true ∧ ∀ c, fs dst.dropLast ≠ some (.file c)) := by
    rcases ensureDir_cases hens with ⟨hdst, rfl⟩ | hmake
    · exact ⟨hdst, fun hnone => absurd hnone hdst⟩
    · obtain ⟨-, hdir, hallowed, rfl⟩ := make_eq_some hmake
      exact ⟨by simp, fun _ => ⟨hallowed, by rw [hdir]; nofun⟩⟩
  refine ⟨(grows_ensureDir hens).mono ?_, ?_, iff_of_true rfl ?_⟩
  · rintro p k ⟨rfl, rfl⟩
    exact ⟨[], by simp, (hroot _ _).mpr ⟨rfl, rfl⟩⟩
  · intro _ rel k hrel
    obtain ⟨rfl, rfl⟩ := (hroot rel k).mp hrel
    simpa using hmade.1
  · intro rel k hrel
    obtain ⟨rfl, rfl⟩ := (hroot rel k).mp hrel
    exact ⟨fun h => absurd rfl h, by simpa using hmade.2, fun h => absurd rfl h,
      fun _ => by simpa using hlist⟩

/-- Whether the directory was there does not matter for its entries. -/
theorem fits_ensureDir_iff (hens : fs.ensureDir sys dst = some fs₁) {names : List String}
    {rel : Path} {k : Kind} (hrel : tree.only names rel = some k) :
    Fits sys src dst fs₁ rel k ↔ Fits sys src dst fs rel k := by
  have hg := grows_ensureDir hens
  have hne : rel ≠ [] := by
    rintro rfl
    simp [Tree.only] at hrel
  refine fits_congr (hg.same fun _ hk => hne (by simpa using hk.1)) fun c => ?_
  constructor
  · intro hc
    rcases hg.new _ _ hc with hold | ⟨-, hk⟩
    · exact hold
    · cases hk
  · exact hg.kept _ _

/-- `copy_dir` in a place that is there, or whose directory is. The
induction is on the depth of what is copied. -/
theorem copyDir_merged (hl : tree.Listed sys src depth) (hs : Source src dst tree fs)
    (hplace : fs dst = none → fs dst.dropLast ≠ none) :
    ∃ ok fs', (∀ fuel, depth ≤ fuel → copyDir sys fuel src dst fs = some (ok, fs')) ∧
      Merged sys src dst tree fs ok fs' := by
  induction depth generalizing src dst tree fs with
  | zero =>
    have hroot := hl.bounded [] (Nat.zero_le _)
    rw [hl.root] at hroot
    cases hroot
  | succ depth ih =>
    have hsrc : fs src = some .dir := by simpa [hl.root] using hs.stands []
    -- every fuel that is enough is a successor
    have hrun : ∀ fuel, depth + 1 ≤ fuel → ∃ f, fuel = f + 1 ∧ depth ≤ f := fun fuel hfuel =>
      ⟨fuel - 1, by omega, by omega⟩
    cases hens : fs.ensureDir sys dst with
    | none =>
      refine ⟨false, fs, fun fuel hfuel => ?_, .refl _ _, nofun, iff_of_false nofun fun hall => ?_⟩
      · obtain ⟨f, rfl, -⟩ := hrun fuel hfuel
        simp [copyDir, hsrc, hens]
      · unfold Fs.ensureDir at hens
        split at hens
        · next hnone =>
          obtain ⟨hallowed, hfile⟩ := (hall [] .dir hl.root).made (by simpa using hnone)
          rw [List.append_nil] at hallowed hfile
          exact make_isSome (hplace hnone) hnone hallowed hfile hens
        · cases hens
    | some fs₁ =>
      cases hlist : sys.list src with
      | none =>
        have hg : Grows fs fs₁ fun p k => ∃ rel, p = dst ++ rel ∧ tree rel = some k := by
          refine (grows_ensureDir hens).mono ?_
          rintro p k ⟨rfl, rfl⟩
          exact ⟨[], by simp, hl.root⟩
        refine ⟨false, fs₁, fun fuel hfuel => ?_, hg, nofun, iff_of_false nofun fun hall => ?_⟩
        · obtain ⟨f, rfl, -⟩ := hrun fuel hfuel
          simp [copyDir, hsrc, hens, hlist]
        · exact (hall [] .dir hl.root).listed rfl (by simpa using hlist)
      | some names =>
        have hroot : Merged sys src dst Tree.root fs true fs₁ := merged_root hens (by simp [hlist])
        have hsplit := hl.split hlist
        have hs₁ : Source src dst tree fs₁ := hs.grows hroot.grows
        have hdst₁ : fs₁ dst ≠ none := by simpa using hroot.copied rfl [] .dir rfl
        have hsub : ∀ name fs, tree [name] = some .dir → Source src dst tree fs → fs dst ≠ none →
            ∃ ok fs', (∀ fuel, depth ≤ fuel →
                copyDir sys fuel (src ++ [name]) (dst ++ [name]) fs = some (ok, fs')) ∧
              Merged sys (src ++ [name]) (dst ++ [name]) (tree.sub name) fs ok fs' := by
          intro name fs hname hs hdst
          exact ih (hl.sub hname) (hs.sub name) fun _ => by rwa [List.dropLast_concat]
        have hlist' : sys.list (src ++ []) = some names := by rwa [List.append_nil]
        obtain ⟨ok, fs₂, hloop, hmerged⟩ := copyEntries_merged hl hsub names
          (hl.nodup [] names hlist') (fun name => (hl.complete [] names hlist' name).mp) fs₁ hs₁
          hdst₁
        refine ⟨ok, fs₂, fun fuel hfuel => ?_, ?_⟩
        · obtain ⟨f, rfl, hf⟩ := hrun fuel hfuel
          simp [copyDir, hsrc, hens, hlist, hloop f hf]
        · exact hroot.seq hmerged hsplit fun rel k hrel => fits_ensureDir_iff hens hrel

/-- `copy_dir` merges a directory into a place that does not overlap it.
It comes to an end, and returns `true` if and only if the place is there or
its directory is, nothing is in the way and everything can be read; then
everything that was not there has been copied. And whether it does or not:
what was there is as it was, and what is new is of the directory. -/
theorem copyDir_merges (sys : Sys) (src dst : Path) (fs : Fs) (depth : Nat)
    (hlisted : Tree.Listed sys src depth fun rel => fs (src ++ rel))
    (hapart : ∀ rel rel', src ++ rel ≠ dst ++ rel') :
    ∃ ok fs', Returns (fun fuel => copyDir sys fuel src dst fs) (ok, fs') ∧
      (ok = true ↔ (fs dst = none → fs dst.dropLast = some .dir) ∧
        ∀ rel k, fs (src ++ rel) = some k → Fits sys src dst fs rel k) ∧
      (ok = true → ∀ rel k, fs (src ++ rel) = some k →
        fs' (dst ++ rel) = (fs (dst ++ rel)).or (some k)) ∧
      (∀ p k, fs p = some k → fs' p = some k) ∧
      ∀ p k, fs' p = some k → fs p = some k ∨ ∃ rel, p = dst ++ rel ∧ fs (src ++ rel) = some k := by
  by_cases hplace : fs dst = none → fs dst.dropLast ≠ none
  · obtain ⟨ok, fs', hrun, hmerged⟩ := copyDir_merged hlisted ⟨fun _ => rfl, hapart⟩ hplace
    refine ⟨ok, fs', ⟨depth, hrun⟩, ?_, ?_, hmerged.grows.kept, hmerged.grows.new⟩
    · rw [hmerged.ok_iff]
      refine ⟨fun hall => ⟨fun hnone => ?_, hall⟩, fun h => h.2⟩
      obtain ⟨-, hfile⟩ := (hall [] .dir hlisted.root).made (by simpa using hnone)
      rw [List.append_nil] at hfile
      cases hk : fs dst.dropLast with
      | none => exact absurd hk (hplace hnone)
      | some kind =>
        cases kind with
        | dir => rfl
        | file c => exact absurd hk (hfile c)
    · intro hok rel k hrel
      cases hold : fs (dst ++ rel) with
      | some k₀ => exact hmerged.grows.kept _ k₀ hold
      | none =>
        obtain ⟨k', hk'⟩ := Option.ne_none_iff_exists'.mp (hmerged.copied hok rel k hrel)
        rcases hmerged.grows.new _ k' hk' with hsome | ⟨rel', heq, hrel'⟩
        · rw [hold] at hsome
          cases hsome
        · rw [← List.append_cancel_left heq, hrel] at hrel'
          rw [hk', ← hrel']
          rfl
  · obtain ⟨hnone, hup⟩ := Classical.not_imp.mp hplace
    rw [not_not] at hup
    have hsrc : fs src = some .dir := by simpa using hlisted.root
    refine ⟨false, fs, ⟨1, fun fuel hfuel => ?_⟩, ?_, nofun, fun _ _ h => h, fun _ _ h => .inl h⟩
    · obtain ⟨f, rfl⟩ : ∃ f, fuel = f + 1 := ⟨fuel - 1, by omega⟩
      simp [copyDir, hsrc, Fs.ensureDir, Fs.make, hnone, hup]
    · refine iff_of_false nofun fun h => ?_
      have hdir := h.1 hnone
      rw [hup] at hdir
      cases hdir

/-- A file and a directory with a file, in the directory `from`. -/
def testFs : Fs := fun p =>
  if p = [] ∨ p = ["from"] ∨ p = ["from", "d"] then some .dir
  else if p = ["from", "a"] then some (.file [1])
  else if p = ["from", "d", "b"] then some (.file [2])
  else none

/-- A system that refuses nothing. -/
def testSys : Sys where
  list p := if p = ["from"] then some ["a", "d"] else if p = ["from", "d"] then some ["b"] else none
  allowed _ := true
  readable _ := true

theorem testFs_listed : Tree.Listed testSys ["from"] 3 fun rel => testFs (["from"] ++ rel) where
  root := by simp [testFs]
  bounded rel hrel := by
    match rel, hrel with
    | x :: y :: z :: rel, _ => simp [testFs]
  parent rel name h := by
    match rel with
    | [] => simp [testFs]
    | [x] =>
      have hx : x = "d" := by
        by_contra hx
        simp [testFs, hx] at h
      simp [testFs, hx]
    | x :: y :: rel => simp [testFs] at h
  nodup rel names h := by
    match rel with
    | [] =>
      obtain rfl : ["a", "d"] = names := by simpa [testSys] using h
      decide
    | x :: rel =>
      obtain ⟨-, rfl⟩ : (x = "d" ∧ rel = []) ∧ ["b"] = names := by simpa [testSys] using h
      decide
  complete rel names h name := by
    match rel with
    | [] =>
      obtain rfl : ["a", "d"] = names := by simpa [testSys] using h
      by_cases hd : name = "d" <;> by_cases ha : name = "a" <;> simp [testFs, hd, ha]
    | x :: rel =>
      obtain ⟨⟨rfl, rfl⟩, rfl⟩ : (x = "d" ∧ rel = []) ∧ ["b"] = names := by
        simpa [testSys] using h
      by_cases hb : name = "b" <;> simp [testFs, hb]

/-- The theorem on them: all is copied. -/
theorem copyDir_merges_new :
    ∃ fs', Returns (fun fuel => copyDir testSys fuel ["from"] ["to"] testFs) (true, fs') ∧
      fs' ["to", "d", "b"] = some (.file [2]) := by
  obtain ⟨ok, fs', hrun, hok, hcopied, -, -⟩ :=
    copyDir_merges testSys ["from"] ["to"] testFs 3 testFs_listed (by simp)
  have hfits : ∀ rel k, testFs (["from"] ++ rel) = some k →
      Fits testSys ["from"] ["to"] testFs rel k := by
    intro rel k hrel
    have hlist : k = .dir → testSys.list (["from"] ++ rel) ≠ none := by
      rintro rfl
      rcases rel with _ | ⟨x, rel⟩
      · simp [testSys]
      · obtain ⟨rfl, rfl⟩ : x = "d" ∧ rel = [] := by
          by_contra hx
          simp only [testFs] at hrel
          rw [if_neg (by simpa using hx)] at hrel
          split_ifs at hrel <;> cases hrel
        simp [testSys]
    have hplace : ∀ c, testFs (["to"] ++ rel).dropLast ≠ some (.file c) := by
      intro c
      cases rel <;> simp [testFs]
    exact ⟨fun _ => by simp [testFs], fun _ => ⟨rfl, hplace⟩, fun _ => rfl, hlist⟩
  obtain rfl : ok = true := hok.mpr ⟨fun _ => by simp [testFs], hfits⟩
  exact ⟨fs', hrun, by simpa [testFs] using hcopied rfl ["d", "b"] (.file [2]) (by simp [testFs])⟩

end HighJump.Io.CopyDir
