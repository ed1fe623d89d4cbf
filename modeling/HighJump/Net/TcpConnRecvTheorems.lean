/-
HighJump.Net.TcpConnRecvTheorems — which slot `hj::tcp_conn` fills with
which message.

A slot whose message is not complete goes back to the END of the channel.
Where no other slot waits that is also the front, and the channel, the
slot in hand and the slots already filled are the slots handed over, in
order (`Inv.slots`); the bytes read and not yet used are the stream
behind the messages already delivered (`Inv.bytes`). From this
`run_in_order` has every slot filled with its own message, and all of
them once the connection is quiet. With two slots waiting one put-back
swaps them, and `swapped` is a run in which the second slot gets the
first message.
-/
import HighJump.Net.TcpConnRecv

namespace HighJump.Net.TcpConnRecv

open HighJump.Lib

section Inv

variable {β : Type}

/-! ## Slots, bytes and reads -/

/-- The slot a running call has in hand. -/
def Phase.held : Phase → List Nat
  | .holding slot | .puttingBack slot => [slot]
  | _ => []

/-- The running call has found the buffer's message incomplete. -/
def Phase.Short : Phase → Prop
  | .puttingBack _ | .afterLoop => True
  | _ => False

/-- The bytes of completed reads that are not committed yet. -/
def State.arriving (s : State β) : List UInt8 := s.ready.flatMap Call.bytes

/-- The reads that have been started and whose call has not run. -/
def State.outstanding (s : State β) : Nat := s.reading.toNat + s.ready.countP (· ≠ posted)

/-- No call is running or will be before something else happens. -/
def State.Quiet (s : State β) : Prop := s.posting = 0 ∧ s.ready = [] ∧ s.phase = .idle

/-- A step by which no slot changes its place: what is handed over is a
slot, and what is put back is put into an empty channel. -/
def Alone (s : State β) : Event β → Prop
  | .asyncRecv slot => slot ≠ nullptr
  | .putBack => s.rCh = []
  | _ => True

/-- `left` are the messages not delivered yet. -/
structure Inv (c : Conn β) (K : Codec UInt8 β) (ms left : List β) (s : State β) : Prop where
  slots : s.filled.map Prod.fst ++ s.phase.held ++ s.rCh = s.slots
  nonnull : ∀ slot ∈ s.slots, slot ≠ nullptr
  msgs : s.filled.map Prod.snd ++ left = ms
  reported : s.reported = if c.recvHandler then s.filled else []
  buf : s.rBuf <+: K.stream left
  bytes : s.Open → s.rBuf ++ s.arriving ++ s.wire = K.stream left
  reads : s.outstanding ≤ s.isRecving.toNat
  recving : s.Open → s.outstanding = s.isRecving.toNat
  short : s.phase.Short → ¬ K.HoldsFirst left s.rBuf
  stalled : s.Open → s.Quiet → s.rCh ≠ [] →
    ¬ K.HoldsFirst left s.rBuf ∧ (s.isRecving = true ∨ c.rbufSz < s.rBuf.length + mtu)

variable {c : Conn β} {K : Codec UInt8 β} {ms left : List β} {s : State β}

theorem inv_new {calls : List Call} (hcalls : calls = [] ∨ calls = [posted]) (mem : Nat → β) :
    Inv c K ms ms (.new calls mem (K.stream ms)) := by
  have harriving : calls.flatMap Call.bytes = [] := by
    rcases hcalls with rfl | rfl <;> rfl
  have hcount : calls.countP (· ≠ posted) = 0 := by
    rcases hcalls with rfl | rfl <;> rfl
  have hout : (State.new calls mem (K.stream ms)).outstanding = 0 := by
    show false.toNat + calls.countP (· ≠ posted) = 0
    rw [hcount]
    rfl
  refine ⟨rfl, fun slot h => (by cases h), rfl, by simp [State.new], List.nil_prefix, fun _ => ?_,
    by rw [hout]; exact Nat.zero_le _, fun _ => hout, fun h => (by cases h),
    fun _ _ h => absurd rfl h⟩
  show [] ++ calls.flatMap Call.bytes ++ K.stream ms = K.stream ms
  rw [harriving]
  rfl

/-! ## Closing -/

theorem setRClosed_eq (s : State β) :
    s.setRClosed = { s with rClosed := true, isConnected := s.isConnected && !s.wClosed } := by
  unfold State.setRClosed State.disconnect
  cases s.wClosed <;> simp

theorem setWClosed_eq (s : State β) :
    s.setWClosed = { s with wClosed := true, isConnected := s.isConnected && !s.rClosed } := by
  unfold State.setWClosed State.disconnect
  cases s.rClosed <;> simp

theorem not_open_setRClosed (s : State β) : ¬ s.setRClosed.Open := by
  rw [setRClosed_eq]
  rintro ⟨-, h⟩
  cases h

/-- A connection that is not opened by it may change its flags. -/
theorem Inv.flags (h : Inv c K ms left s) {connected w r : Bool}
    (hopen : connected = true → r = false → s.Open) :
    Inv c K ms left { s with isConnected := connected, wClosed := w, rClosed := r } :=
  ⟨h.slots, h.nonnull, h.msgs, h.reported, h.buf, fun ho => h.bytes (hopen ho.1 ho.2), h.reads,
    fun ho => h.recving (hopen ho.1 ho.2), h.short, fun ho => h.stalled (hopen ho.1 ho.2)⟩

theorem Inv.setRClosed (h : Inv c K ms left s) : Inv c K ms left s.setRClosed := by
  rw [setRClosed_eq]
  exact h.flags fun _ hr => by cases hr

theorem Inv.setWClosed (h : Inv c K ms left s) : Inv c K ms left s.setWClosed := by
  rw [setWClosed_eq]
  refine h.flags fun hc hr => ⟨?_, hr⟩
  rw [Bool.and_eq_true] at hc
  exact hc.1

/-! ## What becomes ready -/

theorem Inv.enqueue (h : Inv c K ms left s) {slot : Nat} (hslot : slot ≠ nullptr) :
    Inv c K ms left (s.enqueue slot) := by
  refine ⟨?_, fun slot' hmem => ?_, h.msgs, h.reported, h.buf, h.bytes, h.reads, h.recving, h.short,
    fun _ hq => ?_⟩
  · simp only [State.enqueue, ← List.append_assoc, h.slots]
  · rcases List.mem_append.mp hmem with hmem | hmem
    · exact h.nonnull slot' hmem
    · rw [List.mem_singleton.mp hmem]
      exact hslot
  · exact absurd hq.1 (Nat.succ_ne_zero s.posting)

/-- One more call becomes ready, and the read it may stand for is no
longer with the socket. -/
theorem Inv.addReady (h : Inv c K ms left s) {call : Call} {posting : Nat} {reading : Bool}
    {wire : List UInt8} (hbytes : call.bytes ++ wire = s.wire)
    (hreads : reading.toNat + (if call ≠ posted then 1 else 0) = s.reading.toNat) :
    Inv c K ms left { s with posting := posting, reading := reading, wire := wire,
                             ready := s.ready ++ [call] } := by
  have hout : reading.toNat + (s.ready ++ [call]).countP (· ≠ posted) = s.outstanding := by
    unfold State.outstanding
    rw [List.countP_append, List.countP_singleton]
    simp only [decide_eq_true_eq]
    omega
  refine ⟨h.slots, h.nonnull, h.msgs, h.reported, h.buf, fun ho => ?_, hout.trans_le h.reads,
    fun ho => hout.trans (h.recving ho), h.short, fun _ hq => ?_⟩
  · have := h.bytes ho
    rw [← hbytes] at this
    simp only [State.arriving, List.flatMap_append, List.flatMap_singleton, List.append_assoc]
      at this ⊢
    exact this
  · exact absurd hq.2.1 (List.append_ne_nil_of_right_ne_nil _ (List.cons_ne_nil _ _))

/-! ## A call -/

/-- On a closed connection a call changes nothing but the queue. -/
theorem Inv.dropCall (h : Inv c K ms left s) {call : Call} {rest : List Call} (hclosed : ¬ s.Open)
    (hready : s.ready = call :: rest) : Inv c K ms left { s with ready := rest } := by
  have hle : rest.countP (· ≠ posted) ≤ s.ready.countP (· ≠ posted) := by
    rw [hready]
    exact (List.sublist_cons_self call rest).countP_le
  have hreads : s.reading.toNat + rest.countP (· ≠ posted) ≤ s.isRecving.toNat :=
    (Nat.add_le_add_left hle _).trans h.reads
  exact ⟨h.slots, h.nonnull, h.msgs, h.reported, h.buf, fun ho => absurd ho hclosed, hreads,
    fun ho => absurd ho hclosed, h.short, fun ho => absurd ho hclosed⟩

/-- A posted call brings nothing. -/
theorem Inv.enterPosted (h : Inv c K ms left s) {rest : List Call} (hphase : s.phase = .idle)
    (hready : s.ready = posted :: rest) :
    Inv c K ms left { s with ready := rest, phase := .loop } := by
  have hslots := h.slots
  rw [hphase] at hslots
  have hout : s.reading.toNat + rest.countP (· ≠ posted) = s.outstanding := by
    rw [State.outstanding, hready, List.countP_cons_of_neg (by simp)]
  refine ⟨hslots, h.nonnull, h.msgs, h.reported, h.buf, fun ho => ?_, hout.trans_le h.reads,
    fun ho => hout.trans (h.recving ho), fun hs => hs.elim, fun _ hq => by cases hq.2.2⟩
  have hbytes := h.bytes ho
  rw [State.arriving, hready] at hbytes
  exact hbytes

/-- The call of a completed read commits its bytes, and no other read is
left. -/
theorem Inv.enterCompleted (h : Inv c K ms left s) {call : Call} {rest : List Call}
    (hphase : s.phase = .idle) (hready : s.ready = call :: rest) (hopen : s.Open)
    (hcall : call ≠ posted) :
    Inv c K ms left { s with ready := rest, rBuf := s.rBuf ++ call.bytes, isRecving := false,
                             phase := .loop } := by
  have hslots := h.slots
  rw [hphase] at hslots
  have hout : s.reading.toNat + rest.countP (· ≠ posted) = 0 := by
    have hreads := h.reads
    rw [State.outstanding, hready, List.countP_cons_of_pos (by simpa using hcall)] at hreads
    have hle : s.isRecving.toNat ≤ 1 := Bool.toNat_le _
    omega
  have hbytes : s.rBuf ++ call.bytes ++ (rest.flatMap Call.bytes ++ s.wire) = K.stream left := by
    have hbytes := h.bytes hopen
    rw [State.arriving, hready, List.flatMap_cons] at hbytes
    simpa only [List.append_assoc] using hbytes
  refine ⟨hslots, h.nonnull, h.msgs, h.reported, ⟨_, hbytes⟩, fun ho => ?_, hout.le, fun _ => hout,
    fun hs => hs.elim, fun _ hq => by cases hq.2.2⟩
  rw [List.append_assoc]
  exact hbytes

/-- **A call begins**. -/
theorem Inv.enter (h : Inv c K ms left s) {call : Call} {rest : List Call}
    (hphase : s.phase = .idle) (hready : s.ready = call :: rest) :
    Inv c K ms left ({ s with ready := rest }.enter call) := by
  unfold State.enter
  cases hfailed : call.failed with
  | true =>
    have hclosed := not_open_setRClosed { s with ready := rest }
    simp only [if_true, if_neg hclosed]
    have hcomm :
        State.setRClosed { s with ready := rest } = { s.setRClosed with ready := rest } := by
      rw [setRClosed_eq, setRClosed_eq]
    have hready' : s.setRClosed.ready = call :: rest := by
      rw [setRClosed_eq]
      exact hready
    rw [hcomm]
    exact h.setRClosed.dropCall (not_open_setRClosed s) hready'
  | false =>
    simp only [Bool.false_eq_true, if_false]
    split
    · rename_i hopen
      split
      · rename_i hbytes
        refine h.enterCompleted hphase hready hopen fun hcall => ?_
        rw [hcall] at hbytes
        exact absurd hbytes (Nat.lt_irrefl 0)
      · rename_i hbytes
        have hnil : call.bytes = [] := List.length_eq_zero_iff.mp (Nat.eq_zero_of_not_pos hbytes)
        have hcall : call = posted := by
          cases call
          cases hfailed
          cases hnil
          rfl
        rw [hcall] at hready
        exact h.enterPosted hphase hready
    · rename_i hclosed
      exact h.dropCall hclosed hready

/-- The slot in hand, if any, was the first one waiting. -/
theorem Inv.takeSlot (h : Inv c K ms left s) (hphase : s.phase = .loop)
    (hdec : c.decodeHandler ≠ none) : Inv c K ms left (s.takeSlot c) := by
  have hslots := h.slots
  rw [hphase] at hslots
  unfold State.takeSlot
  split
  · rename_i hnil
    refine ⟨?_, h.nonnull, h.msgs, h.reported, h.buf, h.bytes, h.reads, h.recving,
      fun hs => hs.elim, fun _ _ hne => absurd hnil hne⟩
    exact hslots
  · rename_i slot rest hcons
    have hmem : slot ∈ s.slots := by
      rw [← h.slots, hcons]
      exact List.mem_append_right _ List.mem_cons_self
    rw [if_neg (not_or.mpr ⟨h.nonnull slot hmem, hdec⟩)]
    refine ⟨?_, h.nonnull, h.msgs, h.reported, h.buf, h.bytes, h.reads, h.recving,
      fun hs => hs.elim, fun _ hq => by cases hq.2.2⟩
    rw [hcons] at hslots
    simp only [Phase.held, List.append_assoc, List.append_nil] at hslots ⊢
    exact hslots

/-- The slot in hand is filled with the first message left, or that
message is not complete. -/
theorem Inv.decodeInto (h : Inv c K ms left s) (hms : ∀ m ∈ ms, K.Valid m) {slot : Nat}
    (hphase : s.phase = .holding slot) :
    ∃ left', Inv c K ms left' (s.decodeInto c slot K.decode) := by
  have hleft : ∀ m ∈ left, K.Valid m := fun m hm =>
    hms m (by rw [← h.msgs]; exact List.mem_append_right _ hm)
  have hslots := h.slots
  rw [hphase] at hslots
  unfold State.decodeInto
  rcases Codec.decode_cases hleft h.buf (s.mem slot) with
    ⟨hzero, hshort⟩ | ⟨m, rest, buf', rfl, hbuf, hpos, hdec⟩
  · refine ⟨left, ?_⟩
    rw [if_neg (by rw [hzero]; exact Nat.lt_irrefl 0)]
    exact ⟨hslots, h.nonnull, h.msgs, h.reported, h.buf, h.bytes, h.reads, h.recving,
      fun _ => hshort, fun _ hq => by cases hq.2.2⟩
  · refine ⟨rest, ?_⟩
    rw [hdec, if_pos hpos]
    have hdrop : s.rBuf.drop (K.encode m).length = buf' := by
      rw [hbuf, List.drop_left]
    refine ⟨?_, h.nonnull, ?_, ?_, ?_, fun ho => ?_, h.reads, h.recving, fun hs => hs.elim,
      fun _ hq => by cases hq.2.2⟩
    · simp only [Phase.held, List.map_append, List.map_cons, List.map_nil, List.append_nil]
        at hslots ⊢
      exact hslots
    · have := h.msgs
      simp only [List.map_append, List.map_cons, List.map_nil, List.append_assoc] at this ⊢
      exact this
    · have := h.reported
      simp only [this]
      split <;> rfl
    · have := h.buf
      rw [hbuf, Codec.stream_cons] at this
      rw [hdrop]
      exact (List.prefix_append_right_inj _).mp this
    · have := h.bytes ho
      rw [hbuf, Codec.stream_cons] at this
      rw [hdrop]
      simp only [List.append_assoc, List.append_cancel_left_eq] at this ⊢
      exact this

/-- Into an empty channel. -/
theorem Inv.putBack (h : Inv c K ms left s) {slot : Nat} (hphase : s.phase = .puttingBack slot)
    (hempty : s.rCh = []) : Inv c K ms left (s.putBack slot) := by
  have hslots := h.slots
  have hshort := h.short
  rw [hphase] at hslots hshort
  refine ⟨?_, h.nonnull, h.msgs, h.reported, h.buf, h.bytes, h.reads, h.recving,
    fun _ => hshort trivial, fun _ hq => by cases hq.2.2⟩
  rw [hempty, List.append_nil] at hslots
  simp only [State.putBack, hempty, Phase.held, List.append_nil, List.nil_append]
  exact hslots

/-- The buffer's message is not complete, so a read is under way or is
started, unless the buffer has no room for one. -/
theorem Inv.startRead (h : Inv c K ms left s) (hphase : s.phase = .afterLoop) :
    Inv c K ms left (s.startRead c) := by
  have hslots := h.slots
  have hshort := h.short
  rw [hphase] at hslots hshort
  have hshort := hshort trivial
  unfold State.startRead
  split
  · rename_i hrecving
    exact ⟨hslots, h.nonnull, h.msgs, h.reported, h.buf, h.bytes, h.reads, h.recving,
      fun hs => hs.elim, fun _ _ _ => ⟨hshort, .inl hrecving⟩⟩
  split
  · rename_i hfull
    exact ⟨hslots, h.nonnull, h.msgs, h.reported, h.buf, h.bytes, h.reads, h.recving,
      fun hs => hs.elim, fun _ _ _ => ⟨hshort, .inr hfull⟩⟩
  rename_i hrecving _
  have hout : s.outstanding = 0 := by
    have hreads := h.reads
    rw [Bool.not_eq_true] at hrecving
    rw [hrecving] at hreads
    exact Nat.le_zero.mp hreads
  split
  · have hone : true.toNat + s.ready.countP (· ≠ posted) = 1 := by
      rw [State.outstanding] at hout
      rw [(Nat.add_eq_zero_iff.mp hout).2]
      rfl
    exact ⟨hslots, h.nonnull, h.msgs, h.reported, h.buf, h.bytes, hone.le, fun _ => hone,
      fun hs => hs.elim, fun _ _ _ => ⟨hshort, .inl rfl⟩⟩
  · rename_i hconn
    have hclosed : ¬ s.Open := fun ho => hconn ho.1
    have hinv : Inv c K ms left { s with isRecving := true, phase := .idle } :=
      ⟨hslots, h.nonnull, h.msgs, h.reported, h.buf, fun ho => absurd ho hclosed,
        hout.le.trans (Nat.zero_le _), fun ho => absurd ho hclosed, fun hs => hs.elim,
        fun ho => absurd ho hclosed⟩
    exact hinv.setRClosed

/-- **One step** that moves no slot keeps the invariant. -/
theorem Inv.step (hdec : c.decodeHandler = some K.decode) (hms : ∀ m ∈ ms, K.Valid m) {s' : State β}
    {e : Event β} (h : Inv c K ms left s) (halone : Alone s e) (hs : Step c s e s') :
    ∃ left', Inv c K ms left' s' := by
  cases hs with
  | asyncRecv _ => exact ⟨left, h.enqueue halone⟩
  | refused _ => exact ⟨left, h⟩
  | post hposting => exact ⟨left, h.addReady rfl (by simp)⟩
  | @arrive chunk rest hreading _ hchunk _ hwire =>
    have hne : (⟨false, chunk⟩ : Call) ≠ posted := fun heq => hchunk (congrArg Call.bytes heq)
    exact ⟨left, h.addReady hwire.symm (by rw [if_pos hne, hreading]; rfl)⟩
  | fail hreading =>
    have hne : (⟨true, []⟩ : Call) ≠ posted := by decide
    exact ⟨left, h.addReady rfl (by rw [if_pos hne, hreading]; rfl)⟩
  | run hphase hready => exact ⟨left, h.enter hphase hready⟩
  | dequeue hphase => exact ⟨left, h.takeSlot hphase (by rw [hdec]; exact Option.some_ne_none _)⟩
  | decode hphase hd =>
    rw [hdec] at hd
    cases hd
    exact h.decodeInto hms hphase
  | putBack hphase => exact ⟨left, h.putBack hphase halone⟩
  | startRead hphase => exact ⟨left, h.startRead hphase⟩
  | setRClosed => exact ⟨left, h.setRClosed⟩
  | setWClosed => exact ⟨left, h.setWClosed⟩
  | write =>
    exact ⟨left, h.slots, h.nonnull, h.msgs, h.reported, h.buf, h.bytes, h.reads, h.recving,
      h.short, h.stalled⟩

/-! ## The deliveries -/

/-- The deliveries so far pair the first slots with the first messages. -/
theorem Inv.filled_prefix (h : Inv c K ms left s) : s.filled <+: s.slots.zip ms := by
  rw [← h.slots, ← h.msgs, List.append_assoc, List.zip_append (by simp), ← List.unzip_fst,
    ← List.unzip_snd, List.zip_unzip]
  exact List.prefix_append _ _

/-- A quiet connection that has read everything has delivered what it
could. -/
theorem Inv.filled_eq (h : Inv c K ms left s) (hopen : s.Open) (hquiet : s.Quiet)
    (hwire : s.wire = []) : s.filled = s.slots.zip ms := by
  have hslots := h.slots
  rw [hquiet.2.2] at hslots
  rw [← hslots, ← h.msgs, List.append_assoc, List.zip_append (by simp), ← List.unzip_fst,
    ← List.unzip_snd, List.zip_unzip]
  by_cases hch : s.rCh = []
  · simp [hch, Phase.held]
  · have hleft : left = [] := by
      have hbytes := h.bytes hopen
      rw [State.arriving, hquiet.2.1, hwire] at hbytes
      refine K.holdsFirst_stream ?_
      rw [← hbytes]
      simpa using (h.stalled hopen hquiet hch).1
    rw [hleft, List.zip_nil_right, List.append_nil]

end Inv

/-- **Order.** Take any run in which every slot handed over is one and no
slot is put back while another one waits. The slots filled so far are the
first ones handed over, each with its own message, and they are the ones
reported. On an open connection the messages delivered, the bytes in the
buffer and on their way to it, and those still on the wire are the peer's
stream. When nothing is running, either no slot waits or the connection
reads, as long as its buffer has room; and when it has read everything,
every slot that has a message and every message that has a slot has been
delivered. -/
theorem run_in_order {β : Type} {c : Conn β} {K : Codec UInt8 β} {ms : List β}
    (hdec : c.decodeHandler = some K.decode) (hms : ∀ m ∈ ms, K.Valid m) {tr : List (Event β)}
    {s : State β} (hrun : ((connLts c (K.stream ms)).guarded Alone).Run tr s) :
    s.filled <+: s.slots.zip ms ∧ s.reported = (if c.recvHandler then s.filled else []) ∧
      (s.Open →
        K.stream (s.filled.map Prod.snd) ++ s.rBuf ++ s.arriving ++ s.wire = K.stream ms) ∧
      (s.Open → s.Quiet → s.rCh ≠ [] →
        s.reading = true ∨ c.rbufSz < s.rBuf.length + mtu) ∧
      (s.Open → s.Quiet → s.wire = [] → s.filled = s.slots.zip ms) := by
  have hinv : ∃ left, Inv c K ms left s := by
    refine Lts.Run.invariant (I := fun _ s => ∃ left, Inv c K ms left s) ?_ ?_ hrun
    · rintro s ⟨calls, mem, hcalls, rfl⟩
      exact ⟨ms, inv_new hcalls mem⟩
    · rintro tr s e s' - ⟨left, h⟩ ⟨halone, hs⟩
      exact h.step hdec hms halone hs
  obtain ⟨left, h⟩ := hinv
  refine ⟨h.filled_prefix, h.reported, fun hopen => ?_, fun hopen hquiet hch => ?_,
    fun hopen hquiet hwire => h.filled_eq hopen hquiet hwire⟩
  · have hbytes := h.bytes hopen
    rw [List.append_assoc, List.append_assoc, ← List.append_assoc s.rBuf, hbytes,
      ← Codec.stream_append, h.msgs]
  · -- nothing is ready, so a read that was started is with the socket
    refine (h.stalled hopen hquiet hch).2.imp_left fun hrecving => ?_
    have hreads := h.recving hopen
    rw [State.outstanding, hquiet.2.1, hrecving] at hreads
    cases hr : s.reading with
    | true => rfl
    | false => rw [hr] at hreads; cases hreads

/-! ## Two slots -/

/-- `my_codec` of the tests: a message is five bytes. -/
def myCodec : Codec UInt8 (List UInt8) where
  Valid m := m.length = 5
  encode m := m
  decode b data := if data.length < 5 then (0, b) else (5, data.take 5)
  encode_ne_nil m hm := by
    rintro rfl
    cases hm
  decode_nil b := rfl
  decode_short b m p hm hp hne := by
    have hlt : p.length < 5 := by
      rw [← hm]
      exact Nat.lt_of_le_of_ne hp.length_le fun heq => hne (hp.eq_of_length heq)
    rw [if_pos hlt]
  decode_encode b m rest hm := by
    have hge : ¬ (m ++ rest).length < 5 := by
      rw [List.length_append, hm]
      omega
    rw [if_neg hge, hm, List.take_left' hm]

def hello : List UInt8 := [104, 101, 108, 108, 111]
def world : List UInt8 := [119, 111, 114, 108, 100]

/-- A connection with that codec and the default buffer. -/
def testConn : Conn (List UInt8) := ⟨some myCodec.decode, true, 65535⟩

/-- A second slot is handed over while the first one waits for "hello". -/
def swappedTrace : List (Event (List UInt8)) :=
  [.asyncRecv 1, .post, .run, .dequeue, .decode, .putBack, .startRead, .asyncRecv 2, .post, .run,
    .dequeue, .decode, .putBack, .startRead, .arrive hello, .run, .dequeue, .decode]

/-- The call posted for the second slot puts the first one behind it, and
the second one is filled with the first message. -/
theorem swapped :
    ∃ s, (connLts testConn (myCodec.stream [hello, world])).Run swappedTrace s ∧
      s.slots = [1, 2] ∧ s.filled = [(2, hello)] ∧ ¬ s.filled <+: s.slots.zip [hello, world] := by
  have h0 : (connLts testConn (myCodec.stream [hello, world])).Run [] _ :=
    .start ⟨[], fun _ => [], .inl rfl, rfl⟩
  have h1 := h0.snoc (@Step.asyncRecv _ testConn _ 1 (by decide))
  have h2 := h1.snoc (@Step.post _ testConn _ 0 rfl)
  have h3 := h2.snoc (@Step.run _ testConn _ posted [] rfl rfl)
  have h4 := h3.snoc (.dequeue rfl)
  have h5 := h4.snoc (@Step.decode _ testConn _ 1 myCodec.decode rfl rfl)
  have h6 := h5.snoc (@Step.putBack _ testConn _ 1 rfl)
  have h7 := h6.snoc (.startRead rfl)
  have h8 := h7.snoc (@Step.asyncRecv _ testConn _ 2 (by decide))
  have h9 := h8.snoc (@Step.post _ testConn _ 0 rfl)
  have h10 := h9.snoc (@Step.run _ testConn _ posted [] rfl rfl)
  have h11 := h10.snoc (.dequeue rfl)
  have h12 := h11.snoc (@Step.decode _ testConn _ 1 myCodec.decode rfl rfl)
  have h13 := h12.snoc (@Step.putBack _ testConn _ 1 rfl)
  have h14 := h13.snoc (.startRead rfl)
  have h15 := h14.snoc (@Step.arrive _ testConn _ hello world rfl rfl (by decide) (by decide) rfl)
  have h16 := h15.snoc (@Step.run _ testConn _ ⟨false, hello⟩ [] rfl rfl)
  have h17 := h16.snoc (.dequeue rfl)
  have h18 := h17.snoc (@Step.decode _ testConn _ 2 myCodec.decode rfl rfl)
  exact ⟨_, h18, rfl, rfl, by decide⟩

/-- "hello" comes in two pieces, "world" with the second of them, and the
second slot is handed over when the first one is reported. -/
def inOrderTrace : List (Event (List UInt8)) :=
  [.asyncRecv 1, .post, .run, .dequeue, .decode, .putBack, .startRead, .arrive (hello.take 3), .run,
    .dequeue, .decode, .putBack, .startRead, .arrive (hello.drop 3 ++ world), .run, .dequeue,
    .decode, .asyncRecv 2, .post, .dequeue, .decode, .dequeue, .run, .dequeue]

theorem inOrder_run :
    ∃ s, ((connLts testConn (myCodec.stream [hello, world])).guarded Alone).Run inOrderTrace s ∧
      s.Open ∧ s.Quiet ∧ s.wire = [] ∧ s.slots = [1, 2] := by
  have h0 : ((connLts testConn (myCodec.stream [hello, world])).guarded Alone).Run [] _ :=
    .start ⟨[], fun _ => [], .inl rfl, rfl⟩
  have h1 := h0.snocGuarded (@Step.asyncRecv _ testConn _ 1 (by decide)) (Nat.succ_ne_zero _)
  have h2 := h1.snocGuarded (@Step.post _ testConn _ 0 rfl) trivial
  have h3 := h2.snocGuarded (@Step.run _ testConn _ posted [] rfl rfl) trivial
  have h4 := h3.snocGuarded (.dequeue rfl) trivial
  have h5 := h4.snocGuarded (@Step.decode _ testConn _ 1 myCodec.decode rfl rfl) trivial
  have h6 := h5.snocGuarded (@Step.putBack _ testConn _ 1 rfl) rfl
  have h7 := h6.snocGuarded (.startRead rfl) trivial
  have h8 := h7.snocGuarded (@Step.arrive _ testConn _ (hello.take 3) (hello.drop 3 ++ world) rfl
    rfl (by decide) (by decide) rfl) trivial
  have h9 := h8.snocGuarded (@Step.run _ testConn _ ⟨false, hello.take 3⟩ [] rfl rfl) trivial
  have h10 := h9.snocGuarded (.dequeue rfl) trivial
  have h11 := h10.snocGuarded (@Step.decode _ testConn _ 1 myCodec.decode rfl rfl) trivial
  have h12 := h11.snocGuarded (@Step.putBack _ testConn _ 1 rfl) rfl
  have h13 := h12.snocGuarded (.startRead rfl) trivial
  have h14 := h13.snocGuarded (@Step.arrive _ testConn _ (hello.drop 3 ++ world) [] rfl rfl
    (by decide) (by decide) rfl) trivial
  have h15 := h14.snocGuarded (@Step.run _ testConn _ ⟨false, hello.drop 3 ++ world⟩ [] rfl rfl)
    trivial
  have h16 := h15.snocGuarded (.dequeue rfl) trivial
  have h17 := h16.snocGuarded (@Step.decode _ testConn _ 1 myCodec.decode rfl rfl) trivial
  have h18 := h17.snocGuarded (@Step.asyncRecv _ testConn _ 2 (by decide)) (Nat.succ_ne_zero _)
  have h19 := h18.snocGuarded (@Step.post _ testConn _ 0 rfl) trivial
  have h20 := h19.snocGuarded (.dequeue rfl) trivial
  have h21 := h20.snocGuarded (@Step.decode _ testConn _ 2 myCodec.decode rfl rfl) trivial
  have h22 := h21.snocGuarded (.dequeue rfl) trivial
  have h23 := h22.snocGuarded (@Step.run _ testConn _ posted [] rfl rfl) trivial
  have h24 := h23.snocGuarded (.dequeue rfl) trivial
  exact ⟨_, h24, by decide, ⟨rfl, rfl, rfl⟩, rfl, rfl⟩

/-- The theorem on that run: both slots are filled, each with its own
message. -/
theorem run_in_order_hello :
    ∃ s, ((connLts testConn (myCodec.stream [hello, world])).guarded Alone).Run inOrderTrace s ∧
      s.filled = [(1, hello), (2, world)] := by
  obtain ⟨s, hrun, hopen, hquiet, hwire, hslots⟩ := inOrder_run
  have hvalid : ∀ m ∈ [hello, world], myCodec.Valid m := by
    intro m hm
    rcases List.mem_pair.mp hm with rfl | rfl <;> rfl
  obtain ⟨-, -, -, -, hall⟩ := run_in_order rfl hvalid hrun
  have hfilled := hall hopen hquiet hwire
  rw [hslots] at hfilled
  exact ⟨s, hrun, hfilled⟩

end HighJump.Net.TcpConnRecv
