/-
HighJump.Sync.ThreadPoolTheorems — which tasks of `hj::thread_pool` are
executed.

Tasks leave the queue in the order they entered it and none is executed
twice, whatever happens. That each accepted one is executed is another
matter. A worker leaves only when the pool is stopped and the queue
empty, and while it is stopped nothing is accepted; so as long as there
is a worker and no `clear` has lowered the flag again, nothing is lost.
`clear` lowers it after its last join, when there is no worker left, and
what is accepted then stays in the queue for good. A pool without workers
is like that from the start. `run_tasks` says that nothing else can go
wrong.
-/
import HighJump.Sync.ThreadPool

namespace HighJump.Sync.ThreadPool

open HighJump.Lib

section Inv

variable {n : Nat} {ι : Type}

/-! ## One worker moves -/

section Update

variable {f : Fin n → Worker} {w w' : Fin n} {x y : Worker}

/-- Where another worker is, it stays. -/
theorem update_eq_of_ne (hw : f w ≠ y) (hw' : f w' = y) : Function.update f w x w' = y := by
  have hne : w' ≠ w := by
    rintro rfl
    exact hw hw'
  rw [Function.update_of_ne hne, hw']

/-- Who is not where the mover went has not moved. -/
theorem of_update_eq (hw' : Function.update f w x w' = y) (hx : x ≠ y) : w' ≠ w ∧ f w' = y := by
  by_cases heq : w' = w
  · rw [heq, Function.update_self] at hw'
    exact absurd hw' hx
  · rw [Function.update_of_ne heq] at hw'
    exact ⟨heq, hw'⟩

end Update

/-! ## The queue and the workers -/

/-- Tasks in the queue, with a worker, or done; and workers that were
joined. -/
structure Inv (s : Pool n ι) : Prop where
  fifo : s.popped ++ s.tasks = List.range s.accepted
  executed_popped : ∀ t ∈ s.executed, t ∈ s.popped
  running : ∀ w t, s.workers w = .running t → t ∈ s.popped ∧ t ∉ s.executed
  unique : ∀ w w' t, s.workers w = .running t → s.workers w' = .running t → w = w'
  covered : ∀ t ∈ s.popped, t ∈ s.executed ∨ ∃ w, s.workers w = .running t
  nodup : s.executed.Nodup
  joined : ∀ i k, s.callers i = .clearing k → ∀ w : Fin n, w < k → s.workers w = .exited
  dtorJoined : ∀ k, s.dtor = .joining k → ∀ w : Fin n, w < k → s.workers w = .exited
  returned : s.dtor = .returned → ∀ w, s.workers w = .exited

theorem inv_new : Inv (Pool.new : Pool n ι) := by
  refine ⟨rfl, fun t h => ?_, fun w t h => ?_, fun w w' t h => ?_, fun t h => ?_, List.nodup_nil,
    fun i k h => ?_, fun k h => ?_, fun h => ?_⟩
  all_goals cases h

/-- What has been taken and what has not are different tasks. -/
theorem Inv.not_mem_popped {s : Pool n ι} (h : Inv s) {t : Nat} (ht : t ∈ s.tasks) :
    t ∉ s.popped := by
  have hnd : (s.popped ++ s.tasks).Nodup := by rw [h.fifo]; exact List.nodup_range
  intro hp
  exact (List.nodup_append.mp hnd).2.2 t hp t ht rfl

/-- A worker takes the first task. -/
theorem Inv.dequeue {s : Pool n ι} (h : Inv s) {w : Fin n} {t : Nat} {rest : List Nat}
    (hw : s.workers w = .idle) (htasks : s.tasks = t :: rest) :
    Inv { s with tasks := rest, workers := Function.update s.workers w (.running t),
                 popped := s.popped ++ [t] } := by
  have hfresh : t ∉ s.popped := h.not_mem_popped (by rw [htasks]; exact List.mem_cons_self)
  have hother {w' : Fin n} {t' : Nat} (ht' : t' ≠ t)
      (hw' : Function.update s.workers w (.running t) w' = .running t') :
      s.workers w' = .running t' :=
    (of_update_eq hw' fun heq => ht' (Worker.running.inj heq).symm).2
  -- a worker that has gone is not the one that takes the task
  have hgone {w' : Fin n} (hw' : s.workers w' = .exited) :
      Function.update s.workers w (.running t) w' = .exited :=
    update_eq_of_ne (by rw [hw]; nofun) hw'
  refine ⟨?_, fun t' ht' => ?_, fun w' t' hw' => ?_, fun w₁ w₂ t' h₁ h₂ => ?_, fun t' ht' => ?_,
    h.nodup, fun i k hi w' hlt => hgone (h.joined i k hi w' hlt),
    fun k hk w' hlt => hgone (h.dtorJoined k hk w' hlt), fun hr w' => hgone (h.returned hr w')⟩
  · have hfifo := h.fifo
    rw [htasks] at hfifo
    rw [List.append_assoc]
    exact hfifo
  · exact List.mem_append_left _ (h.executed_popped t' ht')
  · by_cases ht' : t' = t
    · rw [ht']
      refine ⟨List.mem_append_right _ (List.mem_singleton_self t), fun hmem => ?_⟩
      exact hfresh (h.executed_popped t hmem)
    · obtain ⟨hp, he⟩ := h.running w' t' (hother ht' hw')
      exact ⟨List.mem_append_left _ hp, he⟩
  · by_cases ht' : t' = t
    · have honly {w' : Fin n} (hw' : Function.update s.workers w (.running t) w' = .running t') :
          w' = w := by
        by_contra hne
        rw [Function.update_of_ne hne, ht'] at hw'
        exact hfresh (h.running w' t hw').1
      rw [honly h₁, honly h₂]
    · exact h.unique w₁ w₂ t' (hother ht' h₁) (hother ht' h₂)
  · rcases List.mem_append.mp ht' with hmem | hmem
    · rcases h.covered t' hmem with he | ⟨w', hw'⟩
      · exact .inl he
      · exact .inr ⟨w', update_eq_of_ne (by rw [hw]; nofun) hw'⟩
    · rw [List.mem_singleton.mp hmem]
      exact .inr ⟨w, by simp⟩

/-- A task is done. -/
theorem Inv.finish {s : Pool n ι} (h : Inv s) {w : Fin n} {t : Nat}
    (hw : s.workers w = .running t) :
    Inv { s with workers := Function.update s.workers w .idle, executed := s.executed ++ [t] } := by
  obtain ⟨hp, he⟩ := h.running w t hw
  have hother {w' : Fin n} {t' : Nat}
      (hw' : Function.update s.workers w .idle w' = .running t') :
      w' ≠ w ∧ s.workers w' = .running t' :=
    of_update_eq hw' nofun
  have hgone {w' : Fin n} (hw' : s.workers w' = .exited) :
      Function.update s.workers w .idle w' = .exited :=
    update_eq_of_ne (by rw [hw]; nofun) hw'
  refine ⟨h.fifo, fun t' ht' => ?_, fun w' t' hw' => ?_, fun w₁ w₂ t' h₁ h₂ => ?_,
    fun t' ht' => ?_, ?_, fun i k hi w' hlt => hgone (h.joined i k hi w' hlt),
    fun k hk w' hlt => hgone (h.dtorJoined k hk w' hlt), fun hr w' => hgone (h.returned hr w')⟩
  · rcases List.mem_append.mp ht' with hmem | hmem
    · exact h.executed_popped t' hmem
    · rw [List.mem_singleton.mp hmem]; exact hp
  · obtain ⟨hne, hw'⟩ := hother hw'
    obtain ⟨hp', he'⟩ := h.running w' t' hw'
    refine ⟨hp', fun hmem => ?_⟩
    rcases List.mem_append.mp hmem with hmem | hmem
    · exact he' hmem
    · rw [List.mem_singleton.mp hmem] at hw'
      exact hne (h.unique w' w t hw' hw)
  · exact h.unique w₁ w₂ t' (hother h₁).2 (hother h₂).2
  · rcases h.covered t' ht' with hmem | ⟨w', hw'⟩
    · exact .inl (List.mem_append_left _ hmem)
    · by_cases hne : w' = w
      · rw [hne, hw] at hw'
        cases hw'
        exact .inl (List.mem_append_right _ (List.mem_singleton_self t))
      · exact .inr ⟨w', by simp only [Function.update_of_ne hne, hw']⟩
  · rw [List.nodup_append]
    refine ⟨h.nodup, List.pairwise_singleton _ _, fun a ha b hb hab => he ?_⟩
    rwa [← List.mem_singleton.mp hb, ← hab]

/-- A worker that was idle leaves. -/
theorem Inv.exit {s : Pool n ι} (h : Inv s) {w : Fin n} (hw : s.workers w = .idle) :
    Inv { s with workers := Function.update s.workers w .exited } := by
  have hrun (w' : Fin n) (t : Nat) :
      Function.update s.workers w .exited w' = .running t ↔ s.workers w' = .running t := by
    constructor
    · exact fun hw' => (of_update_eq hw' nofun).2
    · exact update_eq_of_ne (by rw [hw]; nofun)
  have hgone {w' : Fin n} (hw' : s.workers w' = .exited) :
      Function.update s.workers w .exited w' = .exited :=
    update_eq_of_ne (by rw [hw]; nofun) hw'
  refine ⟨h.fifo, h.executed_popped, fun w' t hw' => h.running w' t ((hrun w' t).mp hw'),
    fun w₁ w₂ t h₁ h₂ => h.unique w₁ w₂ t ((hrun w₁ t).mp h₁) ((hrun w₂ t).mp h₂),
    fun t ht => (h.covered t ht).imp_right fun ⟨w', hw'⟩ => ⟨w', (hrun w' t).mpr hw'⟩, h.nodup,
    fun i k hi w' hlt => hgone (h.joined i k hi w' hlt),
    fun k hk w' hlt => hgone (h.dtorJoined k hk w' hlt), fun hr w' => hgone (h.returned hr w')⟩

/-- One more worker is gone. -/
theorem exited_succ {s : Pool n ι} {w : Fin n} (hw : s.workers w = .exited)
    (hlt : ∀ w' : Fin n, w' < w.1 → s.workers w' = .exited) (w' : Fin n) (h : w' < w.1 + 1) :
    s.workers w' = .exited := by
  by_cases heq : w' = w
  · rw [heq, hw]
  · exact hlt w' (by have := Fin.val_ne_of_ne heq; omega)

/-- A caller moves, and with it perhaps the flag. -/
theorem Inv.setCaller [DecidableEq ι] {s : Pool n ι} (h : Inv s) (stop : Bool) (i : ι) {c : Caller}
    (hc : ∀ k, c = .clearing k → ∀ w : Fin n, w < k → s.workers w = .exited) :
    Inv { s with isStop := stop, callers := Function.update s.callers i c } := by
  refine ⟨h.fifo, h.executed_popped, h.running, h.unique, h.covered, h.nodup, fun j k hj => ?_,
    h.dtorJoined, h.returned⟩
  by_cases hji : j = i
  · simp only [hji, Function.update_self] at hj
    exact hc k hj
  · simp only [Function.update_of_ne hji] at hj
    exact h.joined j k hj

/-- **One step** keeps the invariant. -/
theorem Inv.step [DecidableEq ι] {s s' : Pool n ι} {e : Event n ι} (h : Inv s)
    (hs : Step s e s') : Inv s' := by
  cases hs with
  | accept _ _ =>
    refine ⟨?_, h.executed_popped, h.running, h.unique, h.covered, h.nodup, h.joined, h.dtorJoined,
      h.returned⟩
    simp only [← List.append_assoc, h.fifo, List.range_succ]
  | refuse => exact h
  | dequeue hw htasks => exact h.dequeue hw htasks
  | finish hw => exact h.finish hw
  | exit hw => exact h.exit hw
  | @clearStop i hd hi =>
    refine h.setCaller true i fun k hk => ?_
    cases hk
    exact fun w hw => absurd hw (Nat.not_lt_zero _)
  | @clearJoin i w hd hi hw =>
    refine h.setCaller s.isStop i fun k hk => ?_
    cases hk
    exact exited_succ hw (h.joined i w hi)
  | @clearReset i hd hi => exact h.setCaller false i fun k hk => by cases hk
  | dtorStop hd =>
    refine ⟨h.fifo, h.executed_popped, h.running, h.unique, h.covered, h.nodup, h.joined,
      fun k hk => ?_, fun hr => by cases hr⟩
    cases hk
    exact fun w hw => absurd hw (Nat.not_lt_zero _)
  | @dtorJoin w hd hw =>
    refine ⟨h.fifo, h.executed_popped, h.running, h.unique, h.covered, h.nodup, h.joined,
      fun k hk => ?_, fun hr => by cases hr⟩
    cases hk
    exact exited_succ hw (h.dtorJoined w hd)
  | dtorReturn hd =>
    refine ⟨h.fifo, h.executed_popped, h.running, h.unique, h.covered, h.nodup, h.joined,
      fun k hk => (by cases hk), fun _ w => h.dtorJoined n hd w w.2⟩

end Inv

/-! ## The flag and the trace -/

section Trace

variable {n : Nat} {ι : Type}

/-- Some `clear` has lowered the flag. -/
def ResetIn (tr : List (Event n ι)) : Prop := ∃ i, .clearReset i ∈ tr

/-- An enqueue was accepted by a pool that had no workers or after a
`clear` had lowered the flag. -/
def Late (tr : List (Event n ι)) : Prop :=
  ∃ pre i post, tr = pre ++ .enqueue i true :: post ∧ (n = 0 ∨ ResetIn pre)

theorem resetIn_snoc (tr : List (Event n ι)) (e : Event n ι) :
    ResetIn (tr ++ [e]) ↔ ResetIn tr ∨ ∃ i, e = .clearReset i := by
  unfold ResetIn
  constructor
  · rintro ⟨i, hi⟩
    rcases List.mem_append.mp hi with hi | hi
    · exact .inl ⟨i, hi⟩
    · exact .inr ⟨i, (List.mem_singleton.mp hi).symm⟩
  · rintro (⟨i, hi⟩ | ⟨i, rfl⟩)
    · exact ⟨i, List.mem_append_left _ hi⟩
    · exact ⟨i, List.mem_append_right _ (List.mem_singleton_self _)⟩

theorem late_snoc (tr : List (Event n ι)) (e : Event n ι) :
    Late (tr ++ [e]) ↔ Late tr ∨ ((∃ i, e = .enqueue i true) ∧ (n = 0 ∨ ResetIn tr)) := by
  constructor
  · rintro ⟨pre, i, post, heq, hpre⟩
    rcases List.eq_nil_or_concat post with rfl | ⟨post, e', rfl⟩
    · obtain ⟨rfl, he⟩ := List.append_inj' heq rfl
      exact .inr ⟨⟨i, List.head_eq_of_cons_eq he⟩, hpre⟩
    · have heq' : tr ++ [e] = (pre ++ .enqueue i true :: post) ++ [e'] := by
        rw [heq, List.concat_eq_append]
        simp
      obtain ⟨rfl, -⟩ := List.append_inj' heq' rfl
      exact .inl ⟨pre, i, post, rfl, hpre⟩
  · rintro (⟨pre, i, post, rfl, hpre⟩ | ⟨⟨i, rfl⟩, htr⟩)
    · exact ⟨pre, i, post ++ [e], by simp, hpre⟩
    · exact ⟨tr, i, [], rfl, htr⟩

/-- What the flag says about the workers and the queue: once it has been
lowered there are no workers, and what is in the queue came too late;
before that, a worker that has gone has left an empty queue behind, and
nothing has been put there since. -/
structure Flagged (tr : List (Event n ι)) (s : Pool n ι) : Prop where
  reset : ResetIn tr → ∀ w, s.workers w = .exited
  stopped : ¬ ResetIn tr → ∀ w, s.workers w = .exited → s.isStop = true ∧ s.tasks = []
  early : n ≠ 0 → ¬ ResetIn tr → ¬ Late tr
  late : n = 0 ∨ ResetIn tr → (s.tasks = [] ↔ ¬ Late tr)

theorem flagged_new : Flagged [] (Pool.new : Pool n ι) := by
  have hlate : ¬ Late ([] : List (Event n ι)) := by
    rintro ⟨pre, i, post, heq, -⟩
    exact absurd heq.symm (by simp)
  refine ⟨fun h => ?_, fun _ w hw => (by cases hw), fun _ _ => hlate, fun _ => iff_of_true rfl hlate⟩
  obtain ⟨i, hi⟩ := h
  cases hi

/-- The event lowers no flag and accepts nothing. -/
def Event.Plain : Event n ι → Prop
  | .clearReset _ | .enqueue _ true => False
  | _ => True

theorem Flagged.other {tr : List (Event n ι)} {s s' : Pool n ι} {e : Event n ι}
    (h : Flagged tr s) (hplain : e.Plain)
    (hgone : ∀ w, s.workers w = .exited → s'.workers w = .exited)
    (hstopped : ¬ ResetIn tr → ∀ w, s'.workers w = .exited → s'.isStop = true ∧ s'.tasks = [])
    (htasks : (∀ w, s.workers w = .exited) → (s'.tasks = [] ↔ s.tasks = [])) :
    Flagged (tr ++ [e]) s' := by
  have hr : ResetIn (tr ++ [e]) ↔ ResetIn tr := by
    rw [resetIn_snoc]
    refine or_iff_left fun ⟨i, hi⟩ => ?_
    rw [hi] at hplain
    exact hplain
  have hl : Late (tr ++ [e]) ↔ Late tr := by
    rw [late_snoc]
    refine or_iff_left fun ⟨⟨i, hi⟩, _⟩ => ?_
    rw [hi] at hplain
    exact hplain
  refine ⟨fun h' w => hgone w (h.reset (hr.mp h') w), fun h' => hstopped fun hc => h' (hr.mpr hc),
    fun hn h' => ?_, fun h' => ?_⟩
  · rw [hl]
    exact h.early hn fun hc => h' (hr.mpr hc)
  · rw [hr] at h'
    have hall : ∀ w, s.workers w = .exited := by
      rcases h' with rfl | h'
      · exact fun w => w.elim0
      · exact h.reset h'
    rw [hl, htasks hall]
    exact h.late h'

/-- **One step** keeps what the flag says. -/
theorem Flagged.step [DecidableEq ι] {tr : List (Event n ι)} {s s' : Pool n ι} {e : Event n ι}
    (hinv : Inv s) (h : Flagged tr s) (hs : Step s e s') : Flagged (tr ++ [e]) s' := by
  cases hs with
  | @accept i hd hstop =>
    have hr : ResetIn (tr ++ [.enqueue i true]) ↔ ResetIn tr := by
      rw [resetIn_snoc]
      exact or_iff_left fun ⟨j, hj⟩ => by cases hj
    refine ⟨fun h' => h.reset (hr.mp h'), fun h' w hw => ?_, fun hn h' hlate => ?_, fun h' => ?_⟩
    · -- with a worker gone the pool is stopped and accepts nothing
      have := (h.stopped (fun hc => h' (hr.mpr hc)) w hw).1
      rw [hstop] at this
      cases this
    · rcases (late_snoc tr _).mp hlate with hl | ⟨-, h0 | hc⟩
      · exact h.early hn (fun hc => h' (hr.mpr hc)) hl
      · exact hn h0
      · exact h' (hr.mpr hc)
    · refine iff_of_false (by simp) fun hl => hl ?_
      rw [hr] at h'
      exact (late_snoc tr _).mpr (.inr ⟨⟨i, rfl⟩, h'⟩)
  | refuse hd hstop =>
    exact h.other trivial (fun w hw => hw) h.stopped fun _ => Iff.rfl
  | @dequeue w t rest hw htasks =>
    refine h.other trivial (fun w' hw' => ?_) (fun hc w' hw' => ?_) fun hall => ?_
    · exact update_eq_of_ne (by rw [hw]; nofun) hw'
    · have hnil := (h.stopped hc w' (of_update_eq hw' nofun).2).2
      rw [htasks] at hnil
      cases hnil
    · exact absurd (hall w) (by rw [hw]; exact fun hc => by cases hc)
  | @finish w t hw =>
    refine h.other trivial (fun w' hw' => ?_) (fun hc w' hw' => ?_) fun hall => Iff.rfl
    · exact update_eq_of_ne (by rw [hw]; nofun) hw'
    · exact h.stopped hc w' (of_update_eq hw' nofun).2
  | @exit w hw hstop htasks =>
    refine h.other trivial (fun w' hw' => ?_) (fun _ _ _ => ⟨hstop, htasks⟩) fun _ => Iff.rfl
    exact update_eq_of_ne (by rw [hw]; nofun) hw'
  | @clearStop i hd hi =>
    exact h.other trivial (fun w hw => hw) (fun hc w hw => ⟨rfl, (h.stopped hc w hw).2⟩)
      fun _ => Iff.rfl
  | clearJoin hd hi hw =>
    exact h.other trivial (fun w hw => hw) h.stopped fun _ => Iff.rfl
  | @clearReset i hd hi =>
    -- every worker has been joined
    have hall : ∀ w, s.workers w = .exited := fun w => hinv.joined i n hi w w.2
    have hl : Late (tr ++ [.clearReset i]) ↔ Late tr := by
      rw [late_snoc]
      exact or_iff_left fun ⟨⟨j, hj⟩, _⟩ => by cases hj
    have hr : ResetIn (tr ++ [.clearReset i]) := (resetIn_snoc tr _).mpr (.inr ⟨i, rfl⟩)
    refine ⟨fun _ => hall, fun hc => absurd hr hc, fun _ hc => absurd hr hc, fun _ => ?_⟩
    rw [hl]
    by_cases hn : n = 0 ∨ ResetIn tr
    · exact h.late hn
    · have hpos : 0 < n := Nat.pos_of_ne_zero fun h0 => hn (.inl h0)
      have hno : ¬ ResetIn tr := fun hc => hn (.inr hc)
      exact iff_of_true (h.stopped hno ⟨0, hpos⟩ (hall _)).2
        (h.early (fun h0 => hn (.inl h0)) hno)
  | dtorStop hd =>
    exact h.other trivial (fun w hw => hw) (fun hc w hw => ⟨rfl, (h.stopped hc w hw).2⟩)
      fun _ => Iff.rfl
  | dtorJoin hd hw =>
    exact h.other trivial (fun w hw => hw) h.stopped fun _ => Iff.rfl
  | dtorReturn hd =>
    exact h.other trivial (fun w hw => hw) h.stopped fun _ => Iff.rfl

/-! ## When the destructor has returned -/

/-- With no worker left, all tasks are done if and only if none is left in
the queue. -/
theorem Inv.all_executed_iff {s : Pool n ι} (h : Inv s) (hall : ∀ w, s.workers w = .exited) :
    (∀ t < s.accepted, s.executed.count t = 1) ↔ s.tasks = [] := by
  constructor
  · intro hex
    by_contra hne
    obtain ⟨t, ht⟩ := List.exists_mem_of_ne_nil _ hne
    have hlt : t < s.accepted := by
      rw [← List.mem_range, ← h.fifo]
      exact List.mem_append_right _ ht
    have hcount := hex t hlt
    have hmem : t ∈ s.executed := List.count_pos_iff.mp (by omega)
    exact h.not_mem_popped ht (h.executed_popped t hmem)
  · intro hnil t hlt
    have hpop : t ∈ s.popped := by
      have hfifo := h.fifo
      rw [hnil, List.append_nil] at hfifo
      rw [hfifo, List.mem_range]
      exact hlt
    have hmem : t ∈ s.executed := by
      rcases h.covered t hpop with hmem | ⟨w, hw⟩
      · exact hmem
      · rw [hall w] at hw
        cases hw
    exact List.count_eq_one_of_mem h.nodup hmem

end Trace

/-- **Tasks.** In every run of every pool: no task is executed twice, and
the tasks taken so far are the first ones accepted, in order. When the
destructor has returned, every accepted task has been executed exactly
once if and only if none was accepted by a pool without workers or after
a `clear` had lowered the flag. -/
theorem run_tasks {ctor : Ctor} {ι : Type} [DecidableEq ι] {tr : List (Event ctor.workers ι)}
    {s : Pool ctor.workers ι} (hrun : (poolLts ctor ι).Run tr s) :
    (∀ t, s.executed.count t ≤ 1) ∧ s.popped <+: List.range s.accepted ∧
      (s.dtor = .returned → ((∀ t < s.accepted, s.executed.count t = 1) ↔ ¬ Late tr)) := by
  have hinv : Inv s ∧ Flagged tr s := by
    refine Lts.Run.invariant (M := poolLts ctor ι) (I := fun tr s => Inv s ∧ Flagged tr s) ?_ ?_ hrun
    · rintro s rfl
      exact ⟨inv_new, flagged_new⟩
    · rintro tr s e s' - ⟨hinv, hflag⟩ hs
      exact ⟨hinv.step hs, hflag.step hinv hs⟩
  obtain ⟨hinv, hflag⟩ := hinv
  refine ⟨List.nodup_iff_count_le_one.mp hinv.nodup, ⟨s.tasks, hinv.fifo⟩, fun hret => ?_⟩
  have hall := hinv.returned hret
  rw [hinv.all_executed_iff hall]
  by_cases hn : ctor.workers = 0 ∨ ResetIn tr
  · exact hflag.late hn
  · have hpos : 0 < ctor.workers := Nat.pos_of_ne_zero fun h0 => hn (.inl h0)
    have hno : ¬ ResetIn tr := fun hc => hn (.inr hc)
    exact iff_of_true (hflag.stopped hno ⟨0, hpos⟩ (hall _)).2
      (hflag.early (fun h0 => hn (.inl h0)) hno)

/-! ## One worker -/

/-- The worker of a pool of one. -/
def soleWorker : Fin (Ctor.threads 1).workers := ⟨0, by decide⟩

/-- `clear`, then an enqueue, then the destructor. -/
def lostTrace : List (Event (Ctor.threads 1).workers Unit) :=
  [.clearStop (), .exit soleWorker, .clearJoin (), .clearReset (), .enqueue () true, .dtorStop,
    .dtorJoin, .dtorReturn]

/-- The task is accepted and the destructor returns without it. -/
theorem lost_after_clear :
    ∃ s, (poolLts (.threads 1) Unit).Run lostTrace s ∧ s.dtor = .returned ∧ 0 < s.accepted ∧
      s.executed.count 0 = 0 := by
  have h0 : (poolLts (.threads 1) Unit).Run [] _ := .start rfl
  have h1 := h0.snoc (.clearStop (i := ()) (by decide) rfl)
  have h2 := h1.snoc (.exit (w := soleWorker) rfl rfl rfl)
  have h3 := h2.snoc (.clearJoin (i := ()) (w := soleWorker) (by decide) rfl rfl)
  have h4 := h3.snoc (.clearReset (i := ()) (by decide) rfl)
  have h5 := h4.snoc (.accept (i := ()) (by decide) rfl)
  have h6 := h5.snoc (.dtorStop rfl)
  have h7 := h6.snoc (.dtorJoin (w := soleWorker) rfl rfl)
  have h8 := h7.snoc (.dtorReturn rfl)
  exact ⟨_, h8, rfl, by decide, by decide⟩

/-- An enqueue, its execution and the destructor. -/
def keptTrace : List (Event (Ctor.threads 1).workers Unit) :=
  [.enqueue () true, .dtorStop, .dequeue soleWorker, .finish soleWorker, .exit soleWorker,
    .dtorJoin, .dtorReturn]

theorem kept_run :
    ∃ s, (poolLts (.threads 1) Unit).Run keptTrace s ∧ s.dtor = .returned ∧ s.accepted = 1 ∧
      s.executed = [0] := by
  have h0 : (poolLts (.threads 1) Unit).Run [] _ := .start rfl
  have h1 := h0.snoc (.accept (i := ()) (by decide) rfl)
  have h2 := h1.snoc (.dtorStop rfl)
  have h3 := h2.snoc (.dequeue (w := soleWorker) rfl rfl)
  have h4 := h3.snoc (.finish (w := soleWorker) rfl)
  have h5 := h4.snoc (.exit (w := soleWorker) rfl rfl rfl)
  have h6 := h5.snoc (.dtorJoin (w := soleWorker) rfl rfl)
  have h7 := h6.snoc (.dtorReturn rfl)
  exact ⟨_, h7, rfl, rfl, rfl⟩

/-- The theorem on that run. -/
theorem run_tasks_kept :
    ∃ s, (poolLts (.threads 1) Unit).Run keptTrace s ∧ s.dtor = .returned ∧
      ((∀ t < s.accepted, s.executed.count t = 1) ↔ ¬ Late keptTrace) := by
  obtain ⟨s, hrun, hret, -⟩ := kept_run
  exact ⟨s, hrun, hret, (run_tasks hrun).2.2 hret⟩

end HighJump.Sync.ThreadPool
