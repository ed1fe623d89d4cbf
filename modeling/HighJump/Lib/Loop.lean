/-
HighJump.Lib.Loop — loops that may fail, and their Hoare rules.

A loop body returns `none` where the source would leave defined
behaviour (a read past a buffer, a dead pointer) and the loop itself
returns `none` when its fuel runs out. `repeatUntil_spec` and
`forUp_spec` are the rules for them: an invariant the body keeps and a
measure it lowers give a result, with fuel to spare and no failure, so
nothing is ever proved only "if the loop returns".
-/
import Mathlib.Data.Option.Basic

namespace HighJump.Lib

universe u

variable {σ : Type u}

/-- `while(guard) body`, with at most `fuel` tests of the guard. -/
def loop (guard : σ → Bool) (body : σ → Option σ) : Nat → σ → Option σ
  | 0, _ => none
  | fuel + 1, s => if guard s then (body s).bind (loop guard body fuel) else some s

/-- The partial rule for `loop`: what it is left with, where it is left. -/
theorem loop_sound {guard : σ → Bool} {body : σ → Option σ} (I : σ → Prop)
    (hbody : ∀ s s', I s → guard s = true → body s = some s' → I s') :
    ∀ (fuel : Nat) (s s' : σ), I s → loop guard body fuel s = some s' → I s' ∧ guard s' = false
  | 0, _, _, _, h => by cases h
  | fuel + 1, s, s', hI, h => by
      unfold loop at h
      cases hg : guard s with
      | false =>
        rw [hg] at h
        obtain rfl := Option.some.inj h
        exact ⟨hI, hg⟩
      | true =>
        rw [hg, if_pos rfl] at h
        obtain ⟨s₁, hs₁, hrest⟩ := Option.bind_eq_some_iff.mp h
        exact loop_sound I hbody fuel s₁ s' (hbody s s₁ hI hg hs₁) hrest

/-! ## Loops left from inside -/

/-- What one turn of a loop comes to. -/
inductive Turn (σ ρ : Type u) where
  | again (s : σ)
  | exit (r : ρ)

variable {ρ : Type u}

/-- `for(;;) body`, with at most `fuel` turns; the body may hold loops of
its own and gets the fuel that is left. -/
def repeatUntil (body : Nat → σ → Option (Turn σ ρ)) : Nat → σ → Option ρ
  | 0, _ => none
  | fuel + 1, s =>
      match body fuel s with
      | none => none
      | some (.again s') => repeatUntil body fuel s'
      | some (.exit r) => some r

theorem repeatUntil_again {body : Nat → σ → Option (Turn σ ρ)} {fuel : Nat} {s s' : σ}
    (h : body fuel s = some (.again s')) :
    repeatUntil body (fuel + 1) s = repeatUntil body fuel s' := by
  rw [repeatUntil, h]

theorem repeatUntil_exit {body : Nat → σ → Option (Turn σ ρ)} {fuel : Nat} {s : σ} {r : ρ}
    (h : body fuel s = some (.exit r)) : repeatUntil body (fuel + 1) s = some r := by
  rw [repeatUntil, h]

/-- The rule for `repeatUntil`: every turn keeps the invariant and lowers
the measure, or leaves with what was promised. -/
theorem repeatUntil_spec {body : Nat → σ → Option (Turn σ ρ)} (I : σ → Prop) (Q : ρ → Prop)
    (μ : σ → Nat)
    (hbody : ∀ n s, I s → (∃ s', body n s = some (.again s') ∧ I s' ∧ μ s' < μ s) ∨
      ∃ r, body n s = some (.exit r) ∧ Q r) :
    ∀ (fuel : Nat) (s : σ), I s → μ s < fuel → ∃ r, repeatUntil body fuel s = some r ∧ Q r
  | 0, _, _, h => by omega
  | fuel + 1, s, hI, h => by
      rcases hbody fuel s hI with ⟨s', hb, hI', hlt⟩ | ⟨r, hb, hQ⟩
      · obtain ⟨r, hr, hQ⟩ := repeatUntil_spec I Q μ hbody fuel s' hI' (by omega)
        exact ⟨r, (repeatUntil_again hb).trans hr, hQ⟩
      · exact ⟨r, repeatUntil_exit hb, hQ⟩

/-- The partial rule: what a loop is left with, where it is left. -/
theorem repeatUntil_sound {body : Nat → σ → Option (Turn σ ρ)} (I : σ → Prop) (Q : ρ → Prop)
    (hagain : ∀ n s s', I s → body n s = some (.again s') → I s')
    (hexit : ∀ n s r, I s → body n s = some (.exit r) → Q r) :
    ∀ (fuel : Nat) (s : σ) (r : ρ), I s → repeatUntil body fuel s = some r → Q r
  | 0, _, _, _, h => by cases h
  | fuel + 1, s, r, hI, h => by
      unfold repeatUntil at h
      cases hb : body fuel s with
      | none => rw [hb] at h; cases h
      | some t =>
        rw [hb] at h
        cases t with
        | again s' => exact repeatUntil_sound I Q hagain hexit fuel s' r (hagain _ s s' hI hb) h
        | exit r' =>
          obtain rfl := Option.some.inj h
          exact hexit _ s r' hI hb

/-- Two loops in lockstep: paired states go on to paired states, and an
exit worth keeping is matched by a paired exit. -/
theorem repeatUntil_lockstep {body body' : Nat → σ → Option (Turn σ ρ)} (R : σ → σ → Prop)
    (Keep : ρ → Prop) (Q : ρ → ρ → Prop)
    (hagain : ∀ n s s' t, R s t → body n s = some (.again s') →
      ∃ t', body' n t = some (.again t') ∧ R s' t')
    (hexit : ∀ n s r t, R s t → body n s = some (.exit r) → Keep r →
      ∃ r', body' n t = some (.exit r') ∧ Q r r') :
    ∀ (fuel : Nat) (s t : σ) (r : ρ), R s t → repeatUntil body fuel s = some r → Keep r →
      ∃ r', repeatUntil body' fuel t = some r' ∧ Q r r'
  | 0, _, _, _, _, h, _ => by cases h
  | fuel + 1, s, t, r, hR, h, hk => by
      unfold repeatUntil at h
      cases hb : body fuel s with
      | none => rw [hb] at h; cases h
      | some e =>
        rw [hb] at h
        cases e with
        | again s' =>
          obtain ⟨t', ht, hR'⟩ := hagain fuel s s' t hR hb
          obtain ⟨r', hr, hQ⟩ :=
            repeatUntil_lockstep R Keep Q hagain hexit fuel s' t' r hR' h hk
          exact ⟨r', (repeatUntil_again ht).trans hr, hQ⟩
        | exit r₁ =>
          obtain rfl := Option.some.inj h
          obtain ⟨r', ht, hQ⟩ := hexit fuel s r₁ t hR hb hk
          exact ⟨r', repeatUntil_exit ht, hQ⟩

/-- More fuel never changes an answer. -/
def FuelMono {τ : Type u} (f : Nat → τ → Option ρ) : Prop :=
  ∀ n m s r, n ≤ m → f n s = some r → f m s = some r

theorem repeatUntil_mono {body : Nat → σ → Option (Turn σ ρ)} (h : FuelMono body) :
    FuelMono (repeatUntil body) := by
  intro n
  induction n with
  | zero => intro m s r _ hr; cases hr
  | succ n ih =>
    intro m s r hle hr
    obtain ⟨k, rfl⟩ : ∃ k, m = k + 1 := ⟨m - 1, by omega⟩
    unfold repeatUntil at hr ⊢
    cases hb : body n s with
    | none => rw [hb] at hr; cases hr
    | some t =>
      rw [hb] at hr
      rw [h n k s t (by omega) hb]
      cases t with
      | again s' => exact ih k s' r (by omega) hr
      | exit r' => exact hr

/-- A loop whose turns need no fuel of their own. -/
theorem turns_mono (turn : σ → Turn σ ρ) : FuelMono (repeatUntil fun _ s => some (turn s)) :=
  repeatUntil_mono fun _ _ _ _ _ h => h

/-- Two amounts of fuel that give answers give the same one. -/
theorem FuelMono.unique {τ : Type u} {f : Nat → τ → Option ρ} (h : FuelMono f) {n m : Nat} {s : τ}
    {a b : ρ} (ha : f n s = some a) (hb : f m s = some b) : a = b := by
  rcases Nat.le_total n m with hle | hle
  · exact Option.some.inj ((h n m s a hle ha).symm.trans hb)
  · exact Option.some.inj (ha.symm.trans (h m n s b hle hb))

/-- With enough fuel the answer is `r`. -/
def Returns (f : Nat → Option ρ) (r : ρ) : Prop := ∃ N, ∀ fuel, N ≤ fuel → f fuel = some r

theorem Returns.unique {f : Nat → Option ρ} {a b : ρ} (ha : Returns f a) (hb : Returns f b) :
    a = b := by
  obtain ⟨N, hN⟩ := ha
  obtain ⟨M, hM⟩ := hb
  exact Option.some.inj ((hN (max N M) (Nat.le_max_left N M)).symm.trans (hM _ (Nat.le_max_right N M)))

/-- An answer at some fuel is the answer. -/
theorem FuelMono.returns {τ : Type u} {f : Nat → τ → Option ρ} (h : FuelMono f) {n : Nat} {s : τ}
    {r : ρ} (hr : f n s = some r) : Returns (fun fuel => f fuel s) r :=
  ⟨n, fun fuel hle => h n fuel s r hle hr⟩

/-- A turn that goes on, then the rest of the loop. -/
theorem Returns.repeat_again {body : Nat → σ → Option (Turn σ ρ)} {s s' : σ} {r : ρ}
    (hturn : Returns (fun fuel => body fuel s) (.again s'))
    (hrest : Returns (fun fuel => repeatUntil body fuel s') r) :
    Returns (fun fuel => repeatUntil body fuel s) r := by
  obtain ⟨N, hN⟩ := hturn
  obtain ⟨M, hM⟩ := hrest
  refine ⟨max N M + 1, fun fuel hle => ?_⟩
  obtain ⟨k, rfl⟩ : ∃ k, fuel = k + 1 := ⟨fuel - 1, by omega⟩
  exact (repeatUntil_again (hN k (by omega))).trans (hM k (by omega))

/-- A turn that leaves the loop. -/
theorem Returns.repeat_exit {body : Nat → σ → Option (Turn σ ρ)} {s : σ} {r : ρ}
    (hturn : Returns (fun fuel => body fuel s) (.exit r)) :
    Returns (fun fuel => repeatUntil body fuel s) r := by
  obtain ⟨N, hN⟩ := hturn
  refine ⟨N + 1, fun fuel hle => ?_⟩
  obtain ⟨k, rfl⟩ : ∃ k, fuel = k + 1 := ⟨fuel - 1, by omega⟩
  exact repeatUntil_exit (hN k (by omega))

/-! ## Counted loops -/

/-- `for(int i = a; i < a + n; i++) body`. -/
def forUp (body : Nat → σ → Option σ) : Nat → Nat → σ → Option σ
  | 0, _, s => some s
  | n + 1, a, s => (body a s).bind (forUp body n (a + 1))

/-- The rule for `forUp`. -/
theorem forUp_spec {body : Nat → σ → Option σ} (P : Nat → σ → Prop) :
    ∀ (n a : Nat) (s : σ),
      (∀ i s, a ≤ i → i < a + n → P i s → ∃ s', body i s = some s' ∧ P (i + 1) s') → P a s →
      ∃ s', forUp body n a s = some s' ∧ P (a + n) s'
  | 0, _, s, _, hs => ⟨s, rfl, hs⟩
  | n + 1, a, s, hbody, hs => by
      obtain ⟨s1, h1, hs1⟩ := hbody a s (Nat.le_refl a) (by omega) hs
      obtain ⟨s', h', hs'⟩ := forUp_spec P n (a + 1) s1
        (fun i t hi hlt => hbody i t (by omega) (by omega)) hs1
      exact ⟨s', by rw [forUp, h1]; exact h', by rwa [show a + (n + 1) = a + 1 + n by omega]⟩

/-- The partial rule for `forUp`. -/
theorem forUp_sound {body : Nat → σ → Option σ} (I : σ → Prop)
    (hbody : ∀ i s s', I s → body i s = some s' → I s') :
    ∀ (n a : Nat) (s s' : σ), I s → forUp body n a s = some s' → I s'
  | 0, _, s, s', hI, h => by
      obtain rfl := Option.some.inj h
      exact hI
  | n + 1, a, s, s', hI, h => by
      rw [forUp] at h
      obtain ⟨s1, h1, h'⟩ := Option.bind_eq_some_iff.mp h
      exact forUp_sound I hbody n (a + 1) s1 s' (hbody a s s1 hI h1) h'

/-- A counted loop runs its first turns and then the others. -/
theorem forUp_add (body : Nat → σ → Option σ) (m : Nat) :
    ∀ (n a : Nat) (s : σ), forUp body (n + m) a s = (forUp body n a s).bind (forUp body m (a + n))
  | 0, a, s => by rw [Nat.zero_add]; rfl
  | n + 1, a, s => by
      rw [show n + 1 + m = n + m + 1 by omega, forUp, forUp]
      cases body a s with
      | none => rfl
      | some s1 =>
          rw [Option.bind_some, Option.bind_some, forUp_add body m n (a + 1) s1,
            show a + 1 + n = a + (n + 1) by omega]

/-- A counted loop that adds a piece with every turn has all of them. -/
theorem forUp_union {α : Type u} {body : Nat → σ → Option σ} (Shows : (α → Prop) → σ → Prop)
    (piece : Nat → α → Prop) (n : Nat) {a : Nat} {A : α → Prop} {s : σ}
    (hbody : ∀ i, a ≤ i → i < a + n → ∀ A s, Shows A s →
      ∃ s', body i s = some s' ∧ Shows (fun p => A p ∨ piece i p) s')
    (hs : Shows A s) :
    ∃ s', forUp body n a s = some s' ∧
      Shows (fun p => A p ∨ ∃ i, a ≤ i ∧ i < a + n ∧ piece i p) s' := by
  refine forUp_spec (fun k s => Shows (fun p => A p ∨ ∃ i, a ≤ i ∧ i < k ∧ piece i p) s) n a s
    (fun k s hle hlt hs => ?_) ?_
  · obtain ⟨s', hs', hshows⟩ := hbody k hle hlt _ s hs
    refine ⟨s', hs', ?_⟩
    have heq : (fun p => A p ∨ ∃ i, a ≤ i ∧ i < k + 1 ∧ piece i p) =
        fun p => (A p ∨ ∃ i, a ≤ i ∧ i < k ∧ piece i p) ∨ piece k p := by
      funext p
      refine propext ⟨?_, ?_⟩
      · rintro (hA | ⟨i, hi, hik, hp⟩)
        · exact .inl (.inl hA)
        · by_cases hlast : i = k
          · exact .inr (hlast ▸ hp)
          · exact .inl (.inr ⟨i, hi, by omega, hp⟩)
      · rintro ((hA | ⟨i, hi, hik, hp⟩) | hp)
        · exact .inl hA
        · exact .inr ⟨i, hi, by omega, hp⟩
        · exact .inr ⟨k, hle, by omega, hp⟩
    exact heq ▸ hshows
  · have heq : (fun p => A p ∨ ∃ i, a ≤ i ∧ i < a ∧ piece i p) = A := by
      funext p
      refine propext ⟨?_, Or.inl⟩
      rintro (hA | ⟨i, hi, hia, _⟩)
      · exact hA
      · omega
    change Shows (fun p => A p ∨ ∃ i, a ≤ i ∧ i < a ∧ piece i p) s
    rw [heq]
    exact hs

/-- A turn that always fails takes the loop with it. -/
theorem forUp_eq_none {body : Nat → σ → Option σ} {i : Nat} (h : ∀ s, body i s = none) :
    ∀ (n a : Nat) (s : σ), a ≤ i → i < a + n → forUp body n a s = none
  | 0, _, _, hle, hlt => by omega
  | n + 1, a, s, hle, hlt => by
      rw [forUp]
      by_cases heq : a = i
      · rw [heq, h]
        rfl
      · cases body a s with
        | none => rfl
        | some s' => exact forUp_eq_none h n (a + 1) s' (by omega) (by omega)

end HighJump.Lib
