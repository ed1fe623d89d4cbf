/-
HighJump.Net.TcpConnSendTheorems — what of its messages `hj::tcp_conn`
writes to its socket.

A completed write consumes as many bytes as it took and goes on to the
next message; the rest of the message it was for is in `_w_buf` and is
never given to the socket again. And two writes in flight share `_w_buf`:
the second call's `prepare` may move the storage under the first.
`Traffic` is what these depend on, and `Step.traffic` says once what a
step can do to it. What is written and waiting is never longer than the
encodings (`Inv.short`), so a byte that is lost stays lost, and
`written_iff` has the encodings written out exactly in the runs in which
every write took all its bytes and no storage moved under one.
-/
import HighJump.Net.TcpConnSend

namespace HighJump.Net.TcpConnSend

open HighJump.Lib

/-! ## The bytes on their way -/

/-- What was encoded, what of it the socket has to write and what it has
written. -/
structure Traffic where
  written : List (Option UInt8)
  pending : List (List (Option UInt8))
  encodings : List (List UInt8)
  failed : Bool

/-- The writes the socket has, behind a `prepare`. -/
def Traffic.prepared (t : Traffic) (moved : Bool) : List (List (Option UInt8)) :=
  if moved then t.pending.map fun data => data.map fun _ => none else t.pending

/-- A step by which no byte is lost: a write takes all its bytes, and the
storage moves only while no write waits. -/
def Whole {β : Type} (pending : List (List (Option UInt8))) : Event β → Prop
  | .write k => ∀ data rest, pending = data :: rest → k = data.length
  | .send moved => moved = true → pending = []
  | _ => True

/-- What a step can do to the bytes. -/
inductive TrafficStep {β : Type} : Traffic → Event β → Traffic → Prop where
  | same {t : Traffic} {a : Event β} : (∀ pending, Whole pending a) → TrafficStep t a t
  /-- An encoding without bytes is not given to the socket. -/
  | sendNothing {t : Traffic} {moved : Bool} :
      TrafficStep t (.send moved)
        { t with pending := t.prepared moved, encodings := t.encodings ++ [[]] }
  | send {t : Traffic} {moved : Bool} {bytes : List UInt8} : bytes ≠ [] →
      TrafficStep t (.send moved)
        { t with pending := t.prepared moved ++ [bytes.map some],
                 encodings := t.encodings ++ [bytes] }
  | sendRefused {t : Traffic} {moved : Bool} {bytes : List UInt8} :
      TrafficStep t (.send moved)
        { t with pending := t.prepared moved, encodings := t.encodings ++ [bytes], failed := true }
  | write {t : Traffic} {k : Nat} {data : List (Option UInt8)}
      {rest : List (List (Option UInt8))} : t.pending = data :: rest → k ≤ data.length →
      TrafficStep t (.write k) { t with pending := rest, written := t.written ++ data.take k }
  | fail {t : Traffic} {data : List (Option UInt8)} {rest : List (List (Option UInt8))} :
      t.pending = data :: rest → TrafficStep t .fail { t with pending := rest, failed := true }

section Steps

variable {β : Type} {c : Conn β} {s s' : State β} {a : Event β}

def State.traffic (s : State β) : Traffic := ⟨s.written, s.pending, s.encodings, s.failed⟩

@[simp] theorem traffic_setWClosed (s : State β) : s.setWClosed.traffic = s.traffic := by
  unfold State.setWClosed
  split <;> rfl

@[simp] theorem traffic_setRClosed (s : State β) : s.setRClosed.traffic = s.traffic := by
  unfold State.setRClosed
  split <;> rfl

@[simp] theorem traffic_dequeue (s : State β) : (s.dequeue c).traffic = s.traffic := by
  unfold State.dequeue
  split
  · rfl
  · split <;> rfl

@[simp] theorem traffic_enter (s : State β) (call : Call) :
    (s.enter c call).traffic = s.traffic := by
  have hclosed : (if call.failed then s.setWClosed else s).traffic = s.traffic := by
    split
    · exact traffic_setWClosed s
    · rfl
  simp only [State.enter]
  generalize (if call.failed then s.setWClosed else s) = s₁ at hclosed
  split
  · rw [traffic_dequeue]
    exact hclosed
  · exact hclosed

@[simp] theorem traffic_report (s : State β) (msg : Nat) :
    (s.report c msg).traffic = s.traffic := by
  unfold State.report
  split <;> rfl

/-- The part of a call behind `try_dequeue`. -/
theorem send_traffic (msg : Nat) (encoder : Encoder β) (moved : Bool) :
    TrafficStep (β := β) s.traffic (.send moved) (s.send c msg encoder moved).traffic := by
  simp only [State.send]
  generalize encoder.encode (s.mem msg) = bytes
  split
  next hlen =>
    obtain rfl : bytes = [] := List.eq_nil_of_length_eq_zero (by omega)
    rw [traffic_setWClosed]
    cases moved <;> exact .sendNothing
  next hlen =>
    have hne : bytes ≠ [] := fun hnil => hlen (by rw [hnil]; decide)
    rw [traffic_report, State.sockAsyncSend]
    split
    · cases moved <;> exact .send hne
    · rw [traffic_setWClosed]
      cases moved <;> exact .sendRefused

/-- **What a step can do to the bytes**, whoever takes it. -/
theorem Step.traffic (h : Step c s a s') : TrafficStep s.traffic a s'.traffic := by
  cases h with
  | asyncSend _ | refused _ | post _ | store => exact .same fun _ => trivial
  | run _ _ =>
    rw [traffic_enter]
    exact .same fun _ => trivial
  | setRClosed =>
    rw [traffic_setRClosed]
    exact .same fun _ => trivial
  | setWClosed =>
    rw [traffic_setWClosed]
    exact .same fun _ => trivial
  | send _ _ => exact send_traffic _ _ _
  | write hp _ _ hk => exact .write hp hk
  | fail hp => exact .fail hp

end Steps

/-! ## What is lost stays lost -/

/-- Nothing is given to the socket that was not encoded. -/
structure Traffic.Inv (t : Traffic) : Prop where
  nonempty : ∀ data ∈ t.pending, data ≠ []
  short : t.written.length + t.pending.flatten.length ≤ t.encodings.flatten.length

/-- What is written and what waits are the encodings, in order. -/
def Traffic.Complete (t : Traffic) : Prop :=
  t.written ++ t.pending.flatten = t.encodings.flatten.map some

section Bytes

variable {β : Type} {t t' : Traffic} {a : Event β} {moved : Bool}

theorem length_flatten_prepared (t : Traffic) (moved : Bool) :
    (t.prepared moved).flatten.length = t.pending.flatten.length := by
  cases moved with
  | false => rfl
  | true =>
    show (t.pending.map (List.map fun _ => none)).flatten.length = _
    rw [← List.map_flatten, List.length_map]

theorem prepared_of_settled (h : moved = true → t.pending = []) :
    t.prepared moved = t.pending := by
  cases moved with
  | false => rfl
  | true =>
    rw [Traffic.prepared, h rfl]
    rfl

theorem Traffic.Inv.prepared_nonempty (h : t.Inv) :
    ∀ data ∈ t.prepared moved, data ≠ [] := by
  cases moved with
  | false => exact h.nonempty
  | true =>
    intro data hmem hnil
    obtain ⟨old, hold, rfl⟩ := List.mem_map.mp hmem
    exact h.nonempty old hold (List.map_eq_nil_iff.mp hnil)

theorem Traffic.Inv.step (h : t.Inv) (hs : TrafficStep t a t') : t'.Inv := by
  have hshort := h.short
  cases hs with
  | same _ => exact h
  | @sendNothing moved =>
    have hlen := length_flatten_prepared t moved
    refine ⟨h.prepared_nonempty, ?_⟩
    show t.written.length + (t.prepared moved).flatten.length ≤ (t.encodings ++ [[]]).flatten.length
    rw [List.flatten_concat, List.length_append]
    omega
  | @send moved bytes hne =>
    have hlen := length_flatten_prepared t moved
    refine ⟨?_, ?_⟩
    · intro data hmem
      rcases List.mem_append.mp hmem with hmem | hmem
      · exact h.prepared_nonempty data hmem
      · rw [List.mem_singleton.mp hmem]
        exact fun hnil => hne (List.map_eq_nil_iff.mp hnil)
    · show t.written.length + (t.prepared moved ++ [bytes.map some]).flatten.length ≤
        (t.encodings ++ [bytes]).flatten.length
      rw [List.flatten_concat, List.flatten_concat, List.length_append, List.length_append,
        List.length_map]
      omega
  | @sendRefused moved bytes =>
    have hlen := length_flatten_prepared t moved
    refine ⟨h.prepared_nonempty, ?_⟩
    show t.written.length + (t.prepared moved).flatten.length ≤
      (t.encodings ++ [bytes]).flatten.length
    rw [List.flatten_concat, List.length_append]
    omega
  | @write k data rest hp hk =>
    rw [hp, List.flatten_cons, List.length_append] at hshort
    refine ⟨fun d hd => h.nonempty d (by rw [hp]; exact .tail _ hd), ?_⟩
    show (t.written ++ data.take k).length + rest.flatten.length ≤ t.encodings.flatten.length
    rw [List.length_append, List.length_take]
    omega
  | @fail data rest hp =>
    rw [hp, List.flatten_cons, List.length_append] at hshort
    refine ⟨fun d hd => h.nonempty d (by rw [hp]; exact .tail _ hd), ?_⟩
    show t.written.length + rest.flatten.length ≤ t.encodings.flatten.length
    omega

/-- An error is not forgotten. -/
theorem TrafficStep.not_failed (hs : TrafficStep t a t') (hok : t'.failed = false) :
    t.failed = false := by
  cases hs with
  | same _ | sendNothing | send _ | write _ _ => exact hok
  | sendRefused | fail _ => cases hok

/-- A step that loses nothing keeps them complete. -/
theorem Traffic.Complete.step (h : t.Complete) (hw : Whole t.pending a) (hs : TrafficStep t a t')
    (hok : t'.failed = false) : t'.Complete := by
  cases hs with
  | same _ => exact h
  | sendNothing =>
    show t.written ++ (t.prepared _).flatten = (t.encodings ++ [[]]).flatten.map some
    rw [prepared_of_settled hw, List.flatten_concat, List.append_nil]
    exact h
  | @send moved bytes _ =>
    show t.written ++ (t.prepared moved ++ [bytes.map some]).flatten =
      (t.encodings ++ [bytes]).flatten.map some
    rw [prepared_of_settled hw, List.flatten_concat, List.flatten_concat, List.map_append,
      ← List.append_assoc, h]
  | sendRefused => cases hok
  | @write k data rest hp _ =>
    show t.written ++ data.take k ++ rest.flatten = t.encodings.flatten.map some
    rw [hw data rest hp, List.take_length, List.append_assoc, ← List.flatten_cons, ← hp]
    exact h
  | fail _ => cases hok

/-- Bytes that moved under a write are not those that were encoded. -/
theorem Traffic.Inv.settled (h : t.Inv)
    (hc : t.written ++ (t.prepared moved).flatten = t.encodings.flatten.map some) :
    (moved = true → t.pending = []) ∧ t.Complete := by
  have hsettled : moved = true → t.pending = [] := by
    rintro rfl
    by_contra hne
    obtain ⟨data, hdata⟩ := List.exists_mem_of_ne_nil _ hne
    obtain ⟨b, hb⟩ := List.exists_mem_of_ne_nil _ (h.nonempty data hdata)
    have hnone : none ∈ t.written ++ (t.prepared true).flatten := by
      refine List.mem_append.mpr (.inr (List.mem_flatten.mpr ⟨data.map fun _ => none, ?_, ?_⟩))
      · exact List.mem_map.mpr ⟨data, hdata, rfl⟩
      · exact List.mem_map.mpr ⟨b, hb, rfl⟩
    rw [hc] at hnone
    obtain ⟨_, -, hsome⟩ := List.mem_map.mp hnone
    cases hsome
  rw [prepared_of_settled hsettled] at hc
  exact ⟨hsettled, hc⟩

/-- Where they are complete behind a step, they were before it and the
step lost nothing. -/
theorem Traffic.Inv.step_back (h : t.Inv) (hs : TrafficStep t a t') (hok : t'.failed = false)
    (hc : t'.Complete) : Whole t.pending a ∧ t.Complete := by
  cases hs with
  | same hw => exact ⟨hw _, hc⟩
  | sendNothing =>
    rw [Traffic.Complete, List.flatten_concat, List.append_nil] at hc
    exact h.settled hc
  | send _ =>
    rw [Traffic.Complete, List.flatten_concat, List.flatten_concat, List.map_append,
      ← List.append_assoc] at hc
    exact h.settled (List.append_cancel_right hc)
  | sendRefused => cases hok
  | @write k data rest hp hk =>
    have hc : t.written ++ data.take k ++ rest.flatten = t.encodings.flatten.map some := hc
    have hshort := h.short
    have hlen := congrArg List.length hc
    rw [hp, List.flatten_cons, List.length_append] at hshort
    rw [List.length_append, List.length_append, List.length_take, List.length_map] at hlen
    have hall : k = data.length := by omega
    refine ⟨?_, ?_⟩
    · intro data' rest' hp'
      rw [hp] at hp'
      cases hp'
      exact hall
    · rw [Traffic.Complete, hp, List.flatten_cons, ← List.append_assoc, ← hc, hall,
        List.take_length]
  | fail _ => cases hok

end Bytes

/-! ## Whole messages -/

section Runs

variable {β : Type} {c : Conn β} {s : State β} {tr : List (Event β)}

/-- Every call has run and every write has completed. -/
def State.Done (s : State β) : Prop :=
  s.posting = 0 ∧ s.ready = [] ∧ s.phase = .idle ∧ s.pending = []

theorem run_inv (h : (connLts c).Run tr s) : s.traffic.Inv := by
  refine Lts.Run.invariant (I := fun _ s => s.traffic.Inv) ?_
    (fun _ _ _ _ _ hi hs => hi.step hs.traffic) h
  intro s hs
  obtain ⟨calls, mem, -, rfl⟩ := hs
  exact ⟨fun data hmem => (by cases hmem), Nat.le_refl 0⟩

theorem run_complete (h : ((connLts c).guarded fun s a => Whole s.pending a).Run tr s)
    (hok : s.failed = false) : s.traffic.Complete := by
  refine Lts.Run.invariant (I := fun _ s => s.failed = false → s.traffic.Complete) ?_ ?_ h hok
  · rintro s ⟨calls, mem, -, rfl⟩ -
    rfl
  · rintro tr s a s' - hc ⟨hw, hs⟩ hok
    exact (hc (hs.traffic.not_failed hok)).step hw hs.traffic hok

theorem run_whole (h : (connLts c).Run tr s) (hok : s.failed = false)
    (hc : s.traffic.Complete) :
    ((connLts c).guarded fun s a => Whole s.pending a).Run tr s := by
  refine h.guarded_of_back (I := fun s => s.failed = false ∧ s.traffic.Complete) ?_ ⟨hok, hc⟩
  rintro tr s a s' hr hs ⟨hok, hc⟩
  obtain ⟨hw, hbefore⟩ := (run_inv hr).step_back hs.traffic hok hc
  exact ⟨hw, hs.traffic.not_failed hok, hbefore⟩

/-- **Whole messages**: when all writes have completed without an error,
the bytes written are the encodings of the messages in the order they
were dequeued exactly if every write took all the bytes it was given and
`_w_buf` never moved under one that had not been carried out. -/
theorem written_iff (h : (connLts c).Run tr s) (hdone : s.Done) (hok : s.failed = false) :
    s.written = s.encodings.flatten.map some ↔
      ((connLts c).guarded fun s a => Whole s.pending a).Run tr s := by
  have hcomplete : s.traffic.Complete ↔ s.written = s.encodings.flatten.map some := by
    show s.written ++ s.pending.flatten = _ ↔ _
    rw [hdone.2.2.2, List.flatten_nil, List.append_nil]
    rfl
  rw [← hcomplete]
  exact ⟨run_whole h hok, fun hg => run_complete hg hok⟩

end Runs

/-- An encode handler that copies its message. -/
def copying : Encoder (List UInt8) where
  encode := List.take TcpConnRecv.mtu
  fits := List.length_take_le TcpConnRecv.mtu

/-- One message of three bytes, of which its write takes `k`. -/
theorem exists_sent {k : Nat} (hpos : 0 < k) (hle : k ≤ 3) :
    ∃ tr s, (connLts ⟨some copying, false⟩).Run tr s ∧ s.Done ∧ s.failed = false ∧
      s.encodings = [[1, 2, 3]] ∧ s.written = [some 1, some 2, some 3].take k := by
  have h0 : (connLts ⟨some copying, false⟩).Run [] (.new [] fun _ => [1, 2, 3]) :=
    .start ⟨[], _, .inl rfl, rfl⟩
  have hpost := (h0.snoc (@Step.asyncSend _ _ _ 1 ⟨rfl, rfl⟩)).snoc (.post rfl)
  have hrun := hpost.snoc (.run rfl rfl)
  have hsend := hrun.snoc (@Step.send _ _ _ 1 copying false rfl rfl)
  have hwrite := hsend.snoc (@Step.write _ _ _ k _ _ rfl rfl hpos hle)
  have hdone := hwrite.snoc (.run rfl rfl)
  exact ⟨_, _, hdone, ⟨rfl, rfl, rfl, rfl⟩, rfl, rfl, rfl⟩

/-- It takes all of them. -/
theorem written_iff_three : ∃ tr s, (connLts ⟨some copying, false⟩).Run tr s ∧ s.Done ∧
    s.failed = false ∧ s.written = [some 1, some 2, some 3] ∧
    (s.written = s.encodings.flatten.map some ↔
      ((connLts ⟨some copying, false⟩).guarded fun s a => Whole s.pending a).Run tr s) := by
  obtain ⟨tr, s, hrun, hdone, hok, -, hwritten⟩ := @exists_sent 3 (by decide) (by decide)
  exact ⟨tr, s, hrun, hdone, hok, hwritten, written_iff hrun hdone hok⟩

/-- It takes the first, and the other two are never written. -/
theorem written_one_of_three : ∃ tr s, (connLts ⟨some copying, false⟩).Run tr s ∧ s.Done ∧
    s.failed = false ∧ s.encodings = [[1, 2, 3]] ∧ s.written = [some 1] ∧
    s.written ≠ s.encodings.flatten.map some := by
  obtain ⟨tr, s, hrun, hdone, hok, henc, hwritten⟩ := @exists_sent 1 (by decide) (by decide)
  refine ⟨tr, s, hrun, hdone, hok, henc, hwritten, ?_⟩
  rw [hwritten, henc]
  decide

end HighJump.Net.TcpConnSend
