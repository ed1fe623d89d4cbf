/-
HighJump.Net.TcpConnSyncTheorems — what a blocking sender and a blocking
receiver make of a stream of messages.

`SenderInv` is about what was written: whole messages, and behind a short
write the start of one more, after which nothing is written. So the
stream never goes on behind a gap. `ReceiverInv` is about what was read:
the filled slots, then the buffer, then the wire. The two meet in
`Codec.decode_cases_torn`, the decoder on a stream that may break off.

A slot is put back behind the others, which would let them overtake each
other; but `recv` leaves no slot behind unless its buffer is full
(`Stuck`), and then no slot is filled any more.
-/
import HighJump.Net.TcpConnSync
import HighJump.Net.TcpConnRecvTheorems
import Mathlib.Data.List.ReduceOption
import Mathlib.Tactic.Common

namespace HighJump.Net.TcpConnSync

open HighJump.Lib
open HighJump.Net.TcpConnRecv (mtu nullptr)
open HighJump.Net.TcpConnSend (Encoder)

variable {β : Type} {c : Conn β} {K : Codec UInt8 β}

/-! ## The sending end -/

/-- The message a call has encoded and not written. -/
def SendPhase.inFlight : SendPhase β → List β
  | .writing _ msg _ => [msg]
  | .idle => []
  | .loop _ => []

/-- The message of a call of `send`. -/
def SendCall.message : SendCall β → List β
  | .send msg => msg.toList
  | .disconnect => []

/-- The message of the `send` that is under way. -/
def SendPhase.current : SendPhase β → List β
  | .idle => []
  | .loop call => call.message
  | .writing call _ _ => call.message

/-- The messages `send` said it has sent. -/
def acked (returned : List (Option β × Bool)) : List β :=
  ((returned.filter (·.2)).map (·.1)).reduceOption

@[simp] theorem acked_nil : acked ([] : List (Option β × Bool)) = [] := rfl

@[simp] theorem acked_snoc_true (returned : List (Option β × Bool)) (m : Option β) :
    acked (returned ++ [(m, true)]) = acked returned ++ m.toList := by
  cases m <;> simp [acked, List.reduceOption_append]

@[simp] theorem acked_snoc_false (returned : List (Option β × Bool)) (m : Option β) :
    acked (returned ++ [(m, false)]) = acked returned := by
  simp [acked]

structure SenderInv (K : Codec UInt8 β) (s : Sender β) : Prop where
  valid : ∀ m, some m ∈ s.sent → K.Valid m
  stream : ∃ tail, s.written = K.stream s.whole ++ tail ∧
    (tail ≠ [] → ¬ s.Open ∧ s.phase.inFlight = [] ∧ K.Torn tail)
  wBuf : s.Open → s.phase.inFlight = [] → s.wBuf = []
  writing : ∀ call msg sz, s.phase = .writing call msg sz →
    s.wBuf = K.encode msg ∧ sz = (K.encode msg).length ∧ K.Valid msg ∧ acked s.returned = s.whole
  accepted : s.whole ++ s.phase.inFlight <+: s.sent.reduceOption
  acceptedOpen : s.Open → s.whole ++ s.phase.inFlight ++ s.wCh.reduceOption = s.sent.reduceOption
  ackedPrefix : acked s.returned <+: s.whole
  ackedLength : s.whole.length ≤ (acked s.returned).length + 1
  ackedOpen : s.Open →
    s.whole ++ s.phase.inFlight ++ s.wCh.reduceOption = acked s.returned ++ s.phase.current
  channel : s.Open → s.wCh.length ≤ 1 ∧ (s.phase = .idle → s.wCh = [])

theorem senderInv_new : SenderInv K (.new : Sender β) := by
  constructor <;> simp [Sender.new, SendPhase.inFlight, SendPhase.current]

/-- Nothing opens a side again. -/
theorem Flags.isConnected_close {f : Flags} {closing : Closing}
    (h : (f.close closing).isConnected = true) : f.isConnected = true := by
  cases closing <;>
    simp_all [Flags.close, Flags.setWClosed, Flags.setRClosed, Flags.disconnect]

theorem Flags.wClosed_close {f : Flags} {closing : Closing}
    (h : (f.close closing).wClosed = false) : f.wClosed = false := by
  cases closing <;>
    simp_all [Flags.close, Flags.setWClosed, Flags.setRClosed, Flags.disconnect]

theorem Flags.rClosed_close {f : Flags} {closing : Closing}
    (h : (f.close closing).rClosed = false) : f.rClosed = false := by
  cases closing <;>
    simp_all [Flags.close, Flags.setWClosed, Flags.setRClosed, Flags.disconnect]

section Sending

variable {s : Sender β} {call : SendCall β} {msg : β}

/-- What an open sender promises, a closed one need not. -/
theorem SenderInv.flags (h : SenderInv K s) {f : Flags}
    (hopen : { s with flags := f }.Open → s.Open) : SenderInv K { s with flags := f } := by
  obtain ⟨tail, hwritten, htail⟩ := h.stream
  exact ⟨h.valid, ⟨tail, hwritten, fun hne => ⟨fun ho => (htail hne).1 (hopen ho), (htail hne).2⟩⟩,
    fun ho => h.wBuf (hopen ho), h.writing, h.accepted, fun ho => h.acceptedOpen (hopen ho),
    h.ackedPrefix, h.ackedLength, fun ho => h.ackedOpen (hopen ho),
    fun ho => h.channel (hopen ho)⟩

theorem SenderInv.close (h : SenderInv K s) (closing : Closing) :
    SenderInv K { s with flags := s.flags.close closing } :=
  h.flags fun ho => ⟨Flags.isConnected_close ho.1, Flags.wClosed_close ho.2⟩

/-- A message is handed over. -/
theorem SenderInv.send (h : SenderInv K s) (hphase : s.phase = .idle) {m : Option β}
    (hm : ∀ v, m = some v → K.Valid v) : SenderInv K (s.send m) := by
  obtain ⟨tail, hwritten, htail⟩ := h.stream
  have hvalid : ∀ v, some v ∈ s.sent ++ [m] → K.Valid v := by
    intro v hv
    rcases List.mem_append.mp hv with hv | hv
    · exact h.valid v hv
    · exact hm v (List.mem_singleton.mp hv).symm
  have haccepted : s.whole <+: (s.sent ++ [m]).reduceOption := by
    have hold := h.accepted
    simp only [hphase, SendPhase.inFlight, List.append_nil] at hold
    rw [List.reduceOption_append]
    exact hold.trans (List.prefix_append _ _)
  unfold Sender.send
  split
  next ho =>
    have hempty := (h.channel ho).2 hphase
    have hall := h.acceptedOpen ho
    have hack := h.ackedOpen ho
    simp only [hphase, hempty, SendPhase.inFlight, SendPhase.current, List.reduceOption_nil,
      List.append_nil] at hall hack
    refine ⟨hvalid, ⟨tail, hwritten, fun hne => absurd ho (htail hne).1⟩, ?_, by simp,
      by simpa [SendPhase.inFlight] using haccepted, ?_, h.ackedPrefix, h.ackedLength, ?_, ?_⟩
    · intro _ _
      exact h.wBuf ho (by simp [hphase, SendPhase.inFlight])
    · intro _
      cases m <;> simp [hempty, SendPhase.inFlight, hall, List.reduceOption_append]
    · intro _
      cases m <;> simp [hempty, SendPhase.inFlight, SendPhase.current, SendCall.message, hack]
    · simp [hempty]
  next hclosed =>
    refine ⟨hvalid, ⟨tail, hwritten, htail⟩, fun ho => absurd ho hclosed, by simp [hphase],
      by simpa [hphase, SendPhase.inFlight] using haccepted, fun ho => absurd ho hclosed, ?_, ?_,
      fun ho => absurd ho hclosed, fun ho => absurd ho hclosed⟩
    · simpa using h.ackedPrefix
    · simpa using h.ackedLength

theorem SenderInv.disconnect (h : SenderInv K s) (hphase : s.phase = .idle) :
    SenderInv K s.disconnect := by
  unfold Sender.disconnect
  split
  next =>
    obtain ⟨tail, hwritten, htail⟩ := h.stream
    have haccepted := h.accepted
    have hall := h.acceptedOpen
    have hack := h.ackedOpen
    have hbuf := h.wBuf
    have hchannel := h.channel
    rw [hphase] at htail haccepted hall hack hbuf
    exact ⟨h.valid, ⟨tail, hwritten, htail⟩, hbuf, by simp, haccepted, hall, h.ackedPrefix,
      h.ackedLength, hack, fun ho => ⟨(hchannel ho).1, by simp⟩⟩
  next => exact h

/-- The loop gives up: the sender is closed, or closes now. -/
theorem SenderInv.returnFalse (h : SenderInv K s) (hphase : s.phase.inFlight = [])
    (hclosed : ¬ s.Open) : SenderInv K (s.return call false) := by
  obtain ⟨tail, hwritten, htail⟩ := h.stream
  have haccepted := h.accepted
  rw [hphase] at haccepted
  have hstill : ¬ (s.return call false).Open := by
    cases call with
    | send msg => exact hclosed
    | disconnect => simp [Sender.return, Sender.Open, Flags.disconnect]
  cases call with
  | send msg =>
    refine ⟨h.valid, ⟨tail, hwritten, fun hne => ⟨hstill, rfl, (htail hne).2.2⟩⟩,
      fun ho => absurd ho hstill, by simp [Sender.return], haccepted, fun ho => absurd ho hstill,
      ?_, ?_, fun ho => absurd ho hstill, fun ho => absurd ho hstill⟩
    · simpa [Sender.return] using h.ackedPrefix
    · simpa [Sender.return] using h.ackedLength
  | disconnect =>
    exact ⟨h.valid, ⟨tail, hwritten, fun hne => ⟨hstill, rfl, (htail hne).2.2⟩⟩,
      fun ho => absurd ho hstill, by simp [Sender.return], haccepted, fun ho => absurd ho hstill,
      h.ackedPrefix, h.ackedLength, fun ho => absurd ho hstill, fun ho => absurd ho hstill⟩

/-- The loop has worked off its channel. -/
theorem SenderInv.returnTrue (h : SenderInv K s) (hphase : s.phase = .loop call) (ho : s.Open)
    (hempty : s.wCh = []) : SenderInv K (s.return call true) := by
  obtain ⟨tail, hwritten, htail⟩ := h.stream
  have hall := h.acceptedOpen ho
  have hack := h.ackedOpen ho
  have hbuf := h.wBuf ho (by simp [hphase, SendPhase.inFlight])
  simp only [hphase, hempty, SendPhase.inFlight, SendPhase.current, List.reduceOption_nil,
    List.append_nil] at hall hack
  have hnotail : tail ≠ [] → False := fun hne => (htail hne).1 ho
  cases call with
  | send m =>
    have hacked : acked (s.returned ++ [(m, true)]) = s.whole := by
      simpa [SendCall.message] using hack.symm
    refine ⟨h.valid, ⟨tail, hwritten, fun hne => (hnotail hne).elim⟩, fun _ _ => hbuf,
      by simp [Sender.return], ?_, fun _ => ?_, ?_, ?_, fun _ => ?_, fun _ => ?_⟩
    · simp [Sender.return, SendPhase.inFlight, hall]
    · simp [Sender.return, SendPhase.inFlight, hempty, hall]
    · exact hacked ▸ List.prefix_rfl
    · exact Nat.le_succ_of_le (Nat.le_of_eq (congrArg List.length hacked.symm))
    · simpa [Sender.return, SendPhase.inFlight, SendPhase.current, hempty] using hacked.symm
    · simp [Sender.return, hempty]
  | disconnect =>
    have hstill : ¬ (s.return .disconnect true).Open := by
      simp [Sender.return, Sender.Open, Flags.disconnect]
    refine ⟨h.valid, ⟨tail, hwritten, fun hne => (hnotail hne).elim⟩,
      fun ho => absurd ho hstill, by simp [Sender.return], ?_, fun ho => absurd ho hstill,
      h.ackedPrefix, h.ackedLength, fun ho => absurd ho hstill, fun ho => absurd ho hstill⟩
    simp [Sender.return, SendPhase.inFlight, hall]

/-- A null pointer is taken from the channel. -/
theorem SenderInv.dropNull (h : SenderInv K s) (hphase : s.phase = .loop call) {rest : List (Option β)}
    (hwCh : s.wCh = none :: rest) : SenderInv K { s with wCh := rest } := by
  refine ⟨h.valid, h.stream, h.wBuf, h.writing, h.accepted, fun ho => ?_, h.ackedPrefix,
    h.ackedLength, fun ho => ?_, fun ho => ⟨?_, by simp [hphase]⟩⟩
  · simpa [hwCh] using h.acceptedOpen ho
  · simpa [hwCh] using h.ackedOpen ho
  · have hle := (h.channel ho).1
    rw [hwCh, List.length_cons] at hle
    exact Nat.le_of_succ_le hle

/-- A message is encoded. -/
theorem SenderInv.encode (h : SenderInv K s) (hphase : s.phase = .loop call) (ho : s.Open)
    {rest : List (Option β)} (hwCh : s.wCh = some msg :: rest) :
    K.Valid msg ∧ SenderInv K { s with wCh := rest, wBuf := s.wBuf ++ K.encode msg,
                                       phase := .writing call msg (K.encode msg).length } := by
  obtain ⟨tail, hwritten, htail⟩ := h.stream
  have hrest : rest = [] := by
    have hle := (h.channel ho).1
    rw [hwCh, List.length_cons] at hle
    exact List.length_eq_zero_iff.mp (Nat.le_zero.mp (Nat.le_of_succ_le_succ hle))
  subst hrest
  have hall := h.acceptedOpen ho
  have hack := h.ackedOpen ho
  have hbuf := h.wBuf ho (by simp [hphase, SendPhase.inFlight])
  simp only [hphase, hwCh, SendPhase.inFlight, SendPhase.current, List.append_nil,
    List.reduceOption_cons_of_some, List.reduceOption_nil] at hall hack
  have hvalid : K.Valid msg := by
    refine h.valid msg ?_
    have hmem : msg ∈ s.sent.reduceOption := by rw [← hall]; simp
    exact List.reduceOption_mem_iff.mp hmem
  -- `send` has answered for all that was written.
  have hacked : acked s.returned = s.whole := by
    refine List.IsPrefix.eq_of_length h.ackedPrefix (Nat.le_antisymm h.ackedPrefix.length_le ?_)
    have hlen := congrArg List.length hack
    have hle : call.message.length ≤ 1 := by
      cases call with
      | send m => cases m <;> simp [SendCall.message]
      | disconnect => simp [SendCall.message]
    simp only [List.length_append, List.length_singleton] at hlen
    omega
  refine ⟨hvalid, h.valid, ⟨tail, hwritten, fun hne => absurd ho (htail hne).1⟩,
    fun _ hno => by simp [SendPhase.inFlight] at hno, ?_, ?_, fun _ => ?_, h.ackedPrefix,
    h.ackedLength, fun _ => ?_, fun _ => by simp⟩
  · intro call' msg' sz heq
    cases heq
    exact ⟨by simp [hbuf], rfl, hvalid, hacked⟩
  · exact hall ▸ List.prefix_rfl
  · simpa [SendPhase.inFlight] using hall
  · simpa [SendPhase.inFlight, SendPhase.current] using hack

theorem SenderInv.top (h : SenderInv K s) {encoder : Encoder β}
    (henc : ∀ m, K.Valid m → encoder.encode m = K.encode m) (hc : c.encodeHandler = some encoder)
    (hphase : s.phase = .loop call) : SenderInv K (s.top c call) := by
  have hidle : s.phase.inFlight = [] := by simp [hphase, SendPhase.inFlight]
  unfold Sender.top
  split
  next ho =>
    rw [hc]
    cases hwCh : s.wCh with
    | nil => exact h.returnTrue hphase ho hwCh
    | cons m rest =>
      cases m with
      | none =>
        have hrest : rest = [] := by
          have hle := (h.channel ho).1
          rw [hwCh, List.length_cons] at hle
          exact List.length_eq_zero_iff.mp (Nat.le_zero.mp (Nat.le_of_succ_le_succ hle))
        exact (h.dropNull hphase hwCh).returnTrue hphase ho hrest
      | some msg =>
        obtain ⟨hvalid, hnext⟩ := h.encode hphase ho hwCh
        have hpos : ¬ (K.encode msg).length < 1 := by
          have := List.length_pos_iff.mpr (K.encode_ne_nil msg hvalid)
          omega
        simpa [henc msg hvalid, hpos] using hnext
  next hclosed => exact h.returnFalse hidle hclosed

/-- The socket takes the message, or the start of it and the sender is
closed. -/
theorem SenderInv.write (h : SenderInv K s) {sz n : Nat} (hphase : s.phase = .writing call msg sz)
    (hn : n ≤ s.wBuf.length) : SenderInv K (s.write c call msg sz n) := by
  obtain ⟨tail, hwritten, htail⟩ := h.stream
  obtain ⟨hbuf, rfl, hvalid, hacked⟩ := h.writing call msg sz hphase
  have hnotail : tail = [] := by
    by_contra hne
    have hflight := (htail hne).2.1
    simp [hphase, SendPhase.inFlight] at hflight
  subst hnotail
  have haccepted := h.accepted
  simp only [hphase, SendPhase.inFlight] at haccepted
  unfold Sender.write
  by_cases hshort : n < (K.encode msg).length
  · simp only [hshort, if_true]
    have hclosed : ∀ s' : Sender β, s'.flags = s.flags.setWClosed → ¬ s'.Open := by
      intro s' hf ho
      simp [Sender.Open, hf, Flags.setWClosed] at ho
    have htorn : K.Torn (s.wBuf.take n) := by
      refine ⟨msg, hvalid, by rw [hbuf]; exact List.take_prefix _ _, fun heq => ?_⟩
      have hlen := congrArg List.length heq
      rw [hbuf, List.length_take] at hlen
      omega
    have hwritten' : s.written ++ s.wBuf.take n = K.stream s.whole ++ s.wBuf.take n := by
      rw [hwritten, List.append_nil]
    -- Closed on the way out, with the start of the message written.
    have hmid : SenderInv K { s with written := s.written ++ s.wBuf.take n,
                                     flags := s.flags.setWClosed, phase := .idle } := by
      have hno := hclosed { s with written := s.written ++ s.wBuf.take n,
                                   flags := s.flags.setWClosed, phase := .idle } rfl
      refine ⟨h.valid, ⟨_, hwritten', fun _ => ⟨hno, rfl, htorn⟩⟩, fun ho => absurd ho hno,
        by simp, ?_, fun ho => absurd ho hno, h.ackedPrefix, h.ackedLength,
        fun ho => absurd ho hno, fun ho => absurd ho hno⟩
      simpa [SendPhase.inFlight] using (List.prefix_append _ _).trans haccepted
    have hno := hclosed { s with written := s.written ++ s.wBuf.take n,
                                 flags := s.flags.setWClosed, phase := .idle } rfl
    have hret : SenderInv K (Sender.return { s with written := s.written ++ s.wBuf.take n,
                                                    flags := s.flags.setWClosed,
                                                    phase := .idle } call false) :=
      hmid.returnFalse rfl hno
    cases call <;> exact hret
  · simp only [hshort, if_false]
    have hall : n = (K.encode msg).length := by
      rw [hbuf] at hn
      omega
    subst hall
    have htake : s.wBuf.take (K.encode msg).length = K.encode msg := by simp [hbuf]
    have hdrop : s.wBuf.drop (K.encode msg).length = [] := by simp [hbuf]
    refine ⟨h.valid, ⟨[], ?_, fun hne => absurd rfl hne⟩, fun _ _ => hdrop, by simp, ?_, fun ho => ?_,
      ?_, ?_, fun ho => ?_, fun ho => ⟨(h.channel ho).1, by simp⟩⟩
    · simp [htake, hwritten, Codec.stream_append]
    · simpa [SendPhase.inFlight] using haccepted
    · simpa [hphase, SendPhase.inFlight] using h.acceptedOpen ho
    · simpa using hacked ▸ List.prefix_append s.whole [msg]
    · simpa using Nat.le_of_eq (congrArg List.length hacked.symm)
    · simpa [hphase, SendPhase.inFlight, SendPhase.current] using h.ackedOpen ho

end Sending

/-! ## The receiving end -/

/-- The slot of a call of `recv`. -/
def RecvCall.slot : RecvCall → List Nat
  | .recv slot => [slot]
  | .disconnect => []

/-- The slot of the `recv` that is under way. -/
def RecvPhase.current : RecvPhase → List Nat
  | .idle => []
  | .loop call => call.slot
  | .reading call => call.slot

/-- The slots `recv` said it has filled. -/
def served (returned : List (Nat × Answer)) : List Nat :=
  (returned.filter (·.2 = .ret true)).map (·.1)

@[simp] theorem served_nil : served [] = [] := rfl

@[simp] theorem served_snoc_true (returned : List (Nat × Answer)) (slot : Nat) :
    served (returned ++ [(slot, .ret true)]) = served returned ++ [slot] := by
  simp [served]

theorem served_snoc_of_ne (returned : List (Nat × Answer)) (slot : Nat) {answer : Answer}
    (h : answer ≠ .ret true) : served (returned ++ [(slot, answer)]) = served returned := by
  simp [served, h]

/-- The buffer is full and holds no whole message: a slot waits that is
never filled. -/
structure Stuck (c : Conn β) (K : Codec UInt8 β) (r : Receiver β) : Prop where
  full : c.rbufSz < r.rBuf.length + mtu
  short : ∀ b, (K.decode b r.rBuf).1 = 0
  notReading : ∀ call, r.phase ≠ .reading call
  waiting : r.rCh ≠ []

/-- Every slot is accounted for: it was filled or it is the one `recv` is
at work on. -/
structure Tracked (r : Receiver β) : Prop where
  channel : r.rCh.length ≤ 1
  idle : r.phase = .idle → r.rCh = []
  slots : r.filled.map Prod.fst ++ r.rCh = r.slots
  calls : r.slots = served r.returned ++ r.phase.current

structure ReceiverInv (c : Conn β) (K : Codec UInt8 β) (written wire : List UInt8)
    (r : Receiver β) : Prop where
  conserved : K.stream (r.filled.map Prod.snd) ++ r.rBuf ++ wire = written
  nonnull : ∀ slot ∈ r.rCh, slot ≠ nullptr
  reading : ∀ call, r.phase = .reading call → ∀ b, (K.decode b r.rBuf).1 = 0
  order : r.filled.map Prod.fst <+: r.slots
  servedPrefix : served r.returned <+: r.filled.map Prod.fst
  servedLength : r.filled.length ≤ (served r.returned).length + 1
  track : r.Open → Stuck c K r ∨ Tracked r

theorem receiverInv_new (mem : Nat → β) : ReceiverInv c K [] [] (.new mem) := by
  constructor <;> simp [Receiver.new]
  exact fun _ => .inr ⟨Nat.zero_le _, fun _ => rfl, rfl, rfl⟩

section Receiving

variable {r : Receiver β} {written wire : List UInt8} {call : RecvCall}

theorem ReceiverInv.flags (h : ReceiverInv c K written wire r) {f : Flags}
    (hopen : { r with flags := f }.Open → r.Open) :
    ReceiverInv c K written wire { r with flags := f } := by
  refine ⟨h.conserved, h.nonnull, h.reading, h.order, h.servedPrefix, h.servedLength, fun ho => ?_⟩
  rcases h.track (hopen ho) with hs | ht
  · exact .inl ⟨hs.full, hs.short, hs.notReading, hs.waiting⟩
  · exact .inr ⟨ht.channel, ht.idle, ht.slots, ht.calls⟩

theorem ReceiverInv.close (h : ReceiverInv c K written wire r) (closing : Closing) :
    ReceiverInv c K written wire { r with flags := r.flags.close closing } :=
  h.flags fun ho => ⟨Flags.isConnected_close ho.1, Flags.rClosed_close ho.2⟩

theorem ReceiverInv.setMem (h : ReceiverInv c K written wire r) (mem : Nat → β) :
    ReceiverInv c K written wire { r with mem := mem } := by
  refine ⟨h.conserved, h.nonnull, h.reading, h.order, h.servedPrefix, h.servedLength, fun ho => ?_⟩
  rcases h.track ho with hs | ht
  · exact .inl ⟨hs.full, hs.short, hs.notReading, hs.waiting⟩
  · exact .inr ⟨ht.channel, ht.idle, ht.slots, ht.calls⟩

/-- The socket wrote more onto the wire. -/
theorem ReceiverInv.extend (h : ReceiverInv c K written wire r) (bytes : List UInt8) :
    ReceiverInv c K (written ++ bytes) (wire ++ bytes) r := by
  refine ⟨?_, h.nonnull, h.reading, h.order, h.servedPrefix, h.servedLength, h.track⟩
  rw [← h.conserved]
  simp

theorem ReceiverInv.recv (h : ReceiverInv c K written wire r) (hphase : r.phase = .idle)
    {slot : Nat} (hslot : slot ≠ nullptr) : ReceiverInv c K written wire (r.recv slot) := by
  unfold Receiver.recv
  split
  next ho =>
    have hnonnull : ∀ k ∈ r.rCh ++ [slot], k ≠ nullptr := by
      intro k hk
      rcases List.mem_append.mp hk with hk | hk
      · exact h.nonnull k hk
      · rwa [List.mem_singleton.mp hk]
    refine ⟨h.conserved, hnonnull, by simp, h.order.trans (List.prefix_append _ _),
      h.servedPrefix, h.servedLength, fun _ => ?_⟩
    rcases h.track ho with hs | ht
    · exact .inl ⟨hs.full, hs.short, by simp, by simp⟩
    · have hempty := ht.idle hphase
      have hslots := ht.slots
      have hcalls := ht.calls
      simp only [hempty, hphase, RecvPhase.current, List.append_nil] at hslots hcalls
      exact .inr ⟨by simp [hempty], by simp, by simp [hempty, hslots],
        by simp [RecvPhase.current, RecvCall.slot, hcalls]⟩
  next hclosed =>
    have hserved : served (r.returned ++ [(slot, .ret false)]) = served r.returned :=
      served_snoc_of_ne r.returned slot (by simp)
    refine ⟨h.conserved, h.nonnull, h.reading, h.order, ?_, ?_, fun ho => absurd ho hclosed⟩
    · simpa [hserved] using h.servedPrefix
    · simpa [hserved] using h.servedLength

theorem ReceiverInv.disconnect (h : ReceiverInv c K written wire r) (hphase : r.phase = .idle) :
    ReceiverInv c K written wire r.disconnect := by
  unfold Receiver.disconnect
  split
  next =>
    refine ⟨h.conserved, h.nonnull, by simp, h.order, h.servedPrefix, h.servedLength, fun ho => ?_⟩
    rcases h.track ho with hs | ht
    · exact .inl ⟨hs.full, hs.short, by simp, hs.waiting⟩
    · have hcalls := ht.calls
      rw [hphase] at hcalls
      exact .inr ⟨ht.channel, by simp, ht.slots, hcalls⟩
  next => exact h

/-- The loop ends with no slot filled for its caller. -/
theorem ReceiverInv.returnUnserved (h : ReceiverInv c K written wire r) {answer : Answer}
    (hanswer : answer ≠ .ret true)
    (htrack : r.Open → answer = .thrown ∧ Stuck c K r) :
    ReceiverInv c K written wire (r.return call answer) := by
  cases call with
  | recv slot =>
    have hserved := served_snoc_of_ne r.returned slot hanswer
    refine ⟨h.conserved, h.nonnull, by simp [Receiver.return], h.order, ?_, ?_, fun ho => ?_⟩
    · simpa [Receiver.return, hserved] using h.servedPrefix
    · simpa [Receiver.return, hserved] using h.servedLength
    · obtain ⟨-, hs⟩ := htrack ho
      exact .inl ⟨hs.full, hs.short, by simp [Receiver.return], hs.waiting⟩
  | disconnect =>
    cases answer with
    | ret ok =>
      refine ⟨h.conserved, h.nonnull, by simp [Receiver.return], h.order, h.servedPrefix,
        h.servedLength, fun ho => ?_⟩
      simp [Receiver.return, Receiver.Open, Flags.disconnect] at ho
    | thrown =>
      refine ⟨h.conserved, h.nonnull, by simp [Receiver.return], h.order, h.servedPrefix,
        h.servedLength, fun ho => ?_⟩
      obtain ⟨-, hs⟩ := htrack ho
      exact .inl ⟨hs.full, hs.short, by simp [Receiver.return], hs.waiting⟩

/-- The loop has worked off its channel. -/
theorem ReceiverInv.returnTrue (h : ReceiverInv c K written wire r) (hphase : r.phase = .loop call)
    (ho : r.Open) (hempty : r.rCh = []) :
    ReceiverInv c K written wire (r.return call (.ret true)) := by
  have ht : Tracked r := (h.track ho).resolve_left fun hs => hs.waiting hempty
  have hslots := ht.slots
  have hcalls := ht.calls
  rw [hempty, List.append_nil] at hslots
  rw [hphase] at hcalls
  cases call with
  | recv slot =>
    have hserved : served (r.returned ++ [(slot, .ret true)]) = r.filled.map Prod.fst := by
      rw [served_snoc_true, hslots, hcalls]
      rfl
    refine ⟨h.conserved, h.nonnull, by simp [Receiver.return], h.order, hserved ▸ List.prefix_rfl,
      ?_, fun _ => .inr ⟨ht.channel, fun _ => hempty, ht.slots, ?_⟩⟩
    · have hlen := congrArg List.length hserved
      rw [List.length_map] at hlen
      exact Nat.le_succ_of_le (Nat.le_of_eq hlen.symm)
    · simp [Receiver.return, RecvPhase.current, hcalls, RecvCall.slot]
  | disconnect =>
    refine ⟨h.conserved, h.nonnull, by simp [Receiver.return], h.order, h.servedPrefix,
      h.servedLength, fun ho => ?_⟩
    simp [Receiver.return, Receiver.Open, Flags.disconnect] at ho

/-- What `ReceiverInv.top` is told of the buffer: it starts with messages
that were written and maybe the start of one more. -/
structure Ahead (K : Codec UInt8 β) (r : Receiver β) (left : List β) (tail : List UInt8) :
    Prop where
  valid : ∀ m ∈ left, K.Valid m
  torn : tail ≠ [] → K.Torn tail
  buf : r.rBuf <+: K.stream left ++ tail

/-- The decode handler finds the next message. -/
theorem ReceiverInv.fill (h : ReceiverInv c K written wire r) (hphase : r.phase = .loop call)
    (ho : r.Open) {slot : Nat} {rest : List Nat} (hrCh : r.rCh = slot :: rest) {m : β}
    {buf' : List UInt8} (hbuf : r.rBuf = K.encode m ++ buf') (hne : K.encode m ≠ [])
    (hdec : ∀ b, K.decode b r.rBuf = ((K.encode m).length, m)) (mem : Nat → β)
    (reported : List (Nat × β)) :
    ReceiverInv c K written wire { r with
      mem := mem, rCh := rest, rBuf := r.rBuf.drop (K.encode m).length,
      filled := r.filled ++ [(slot, m)], reported := reported } := by
  have ht : Tracked r := by
    refine (h.track ho).resolve_left fun hs => ?_
    have hzero := hs.short m
    rw [hdec] at hzero
    exact hne (List.length_eq_zero_iff.mp hzero)
  have hrest : rest = [] := by
    have hle := ht.channel
    rw [hrCh, List.length_cons] at hle
    exact List.length_eq_zero_iff.mp (Nat.le_zero.mp (Nat.le_of_succ_le_succ hle))
  subst hrest
  have hdrop : r.rBuf.drop (K.encode m).length = buf' := by simp [hbuf]
  have hslots := ht.slots
  rw [hrCh] at hslots
  have hslots' : (r.filled ++ [(slot, m)]).map Prod.fst = r.slots := by simpa using hslots
  refine ⟨?_, by simp, by simp [hphase], ?_, ?_, ?_, fun _ => .inr ⟨by simp, by simp, ?_, ht.calls⟩⟩
  · rw [← h.conserved, hdrop, hbuf]
    simp [Codec.stream_append]
  · exact hslots' ▸ List.prefix_rfl
  · rw [hslots', ht.calls]
    exact List.prefix_append _ _
  · have hlen := congrArg List.length (hslots'.trans ht.calls)
    have hle : call.slot.length ≤ 1 := by cases call <;> simp [RecvCall.slot]
    simp only [List.length_map, List.length_append, hphase, RecvPhase.current] at hlen ⊢
    omega
  · simpa using hslots'

/-- The decode handler finds none, and the slot is put back. -/
theorem ReceiverInv.putBack (h : ReceiverInv c K written wire r) (hphase : r.phase = .loop call)
    (ho : r.Open) {slot : Nat} {rest : List Nat} (hrCh : r.rCh = slot :: rest)
    (hshort : ∀ b, (K.decode b r.rBuf).1 = 0) (mem : Nat → β) :
    ReceiverInv c K written wire
      (if c.rbufSz < r.rBuf.length + mtu then
        { r with mem := mem, rCh := rest ++ [slot] }.return call .thrown
      else { r with mem := mem, rCh := rest ++ [slot], phase := .reading call }) := by
  have hnonnull : ∀ k ∈ rest ++ [slot], k ≠ nullptr := by
    intro k hk
    refine h.nonnull k ?_
    rw [hrCh]
    simpa [or_comm] using hk
  split
  next hfull =>
    have hstuck : Stuck c K { r with mem := mem, rCh := rest ++ [slot] } :=
      ⟨hfull, hshort, by simp [hphase], by simp⟩
    have hmid : ReceiverInv c K written wire { r with mem := mem, rCh := rest ++ [slot] } :=
      ⟨h.conserved, hnonnull, h.reading, h.order, h.servedPrefix, h.servedLength,
        fun _ => .inl hstuck⟩
    exact hmid.returnUnserved (by simp) fun _ => ⟨rfl, hstuck⟩
  next hroom =>
    have ht : Tracked r := (h.track ho).resolve_left fun hs => hroom hs.full
    have hrest : rest = [] := by
      have hle := ht.channel
      rw [hrCh, List.length_cons] at hle
      exact List.length_eq_zero_iff.mp (Nat.le_zero.mp (Nat.le_of_succ_le_succ hle))
    subst hrest
    refine ⟨h.conserved, hnonnull, fun _ _ => hshort, h.order, h.servedPrefix, h.servedLength,
      fun _ => .inr ⟨by simp, by simp, ?_, ?_⟩⟩
    · simpa [hrCh] using ht.slots
    · simpa [hphase, RecvPhase.current] using ht.calls

theorem ReceiverInv.read (h : ReceiverInv c K written wire r) (hphase : r.phase = .reading call)
    {chunk rest : List UInt8} (hwire : wire = chunk ++ rest) :
    ReceiverInv c K written rest (r.read call chunk) := by
  refine ⟨?_, h.nonnull, by simp [Receiver.read], h.order, h.servedPrefix, h.servedLength,
    fun ho => ?_⟩
  · rw [← h.conserved, hwire]
    simp [Receiver.read]
  · rcases h.track ho with hs | ht
    · exact absurd hphase (hs.notReading call)
    · have hcalls := ht.calls
      rw [hphase] at hcalls
      exact .inr ⟨ht.channel, by simp [Receiver.read], ht.slots, hcalls⟩

/-- One turn of the loop: the invariant is kept, and what it fills a slot
with is the next of the messages that are left. -/
theorem ReceiverInv.top (h : ReceiverInv c K written wire r) (hdec : c.decodeHandler = some K.decode)
    (hphase : r.phase = .loop call) {left : List β} {tail : List UInt8}
    (hahead : Ahead K r left tail) :
    ReceiverInv c K written wire (r.top c call) ∧
      ∃ found, (r.top c call).filled.map Prod.snd = r.filled.map Prod.snd ++ found ∧
        found <+: left := by
  have hreturn : ∀ answer, (r.return call answer).filled = r.filled := by
    intro answer
    cases call <;> cases answer <;> rfl
  unfold Receiver.top
  split
  next ho =>
    rw [hdec]
    cases hrCh : r.rCh with
    | nil => exact ⟨h.returnTrue hphase ho hrCh, [], by simp [hreturn], List.nil_prefix⟩
    | cons slot rest =>
      have hslot : slot ≠ nullptr := h.nonnull slot (by simp [hrCh])
      simp only [hslot, if_false, Receiver.decodeInto]
      rcases Codec.decode_cases_torn hahead.valid hahead.torn hahead.buf (r.mem slot) with
        ⟨hzero, hno⟩ | ⟨m, rest', buf', rfl, hbuf, hpos, hfound⟩
      · have hshort := Codec.decode_zero_torn hahead.valid hahead.torn hahead.buf hno
        have hnext := h.putBack hphase ho hrCh hshort
          (Function.update r.mem slot (K.decode (r.mem slot) r.rBuf).2)
        simp only [hzero, Nat.lt_irrefl, if_false]
        refine ⟨hnext, [], ?_, List.nil_prefix⟩
        split
        · cases call <;> simp [Receiver.return]
        · simp
      · have hm : K.Valid m := hahead.valid m (by simp)
        have hall : ∀ b, K.decode b r.rBuf = ((K.encode m).length, m) := by
          intro b
          rw [hbuf]
          exact K.decode_encode b m buf' hm
        rw [hfound]
        simp only [hpos, if_true]
        refine ⟨h.fill hphase ho hrCh hbuf (K.encode_ne_nil m hm) hall _ _, [m], by simp, ?_⟩
        exact ⟨rest', rfl⟩
  next hclosed =>
    refine ⟨h.returnUnserved (by simp) fun ho => absurd ho hclosed, [], by simp [hreturn],
      List.nil_prefix⟩

end Receiving

/-! ## Both -/

structure Inv (c : Conn β) (K : Codec UInt8 β) (s : State β) : Prop where
  sender : SenderInv K s.sender
  receiver : ReceiverInv c K s.sender.written s.wire s.receiver
  received : s.receiver.filled.map Prod.snd <+: s.sender.whole

/-- The callers keep to the codec's messages and hand over real slots. -/
def Proper (K : Codec UInt8 β) (_ : State β) : Event β → Prop
  | .send msg => ∀ m, msg = some m → K.Valid m
  | .recv slot => slot ≠ nullptr
  | _ => True

section System

variable {s s' : State β} {a : Event β}

/-- Neither handler is told twice of a message, nor of one it missed. -/
def Told (c : Conn β) (s : State β) : Prop :=
  s.sender.reported = (if c.sendHandler then s.sender.whole else []) ∧
    s.receiver.reported = (if c.recvHandler then s.receiver.filled else [])

/-! Only `write` adds to what was written, and only a turn of the other
loop to what was filled. -/

theorem Sender.send_same (s : Sender β) (msg : Option β) : (s.send msg).whole = s.whole ∧
    (s.send msg).written = s.written ∧ (s.send msg).reported = s.reported := by
  unfold Sender.send
  split <;> exact ⟨rfl, rfl, rfl⟩

theorem Sender.disconnect_same (s : Sender β) : s.disconnect.whole = s.whole ∧
    s.disconnect.written = s.written ∧ s.disconnect.reported = s.reported := by
  unfold Sender.disconnect
  split <;> exact ⟨rfl, rfl, rfl⟩

theorem Sender.top_same (s : Sender β) (call : SendCall β) : (s.top c call).whole = s.whole ∧
    (s.top c call).written = s.written ∧ (s.top c call).reported = s.reported := by
  simp only [Sender.top]
  cases call <;> (repeat' split) <;> exact ⟨rfl, rfl, rfl⟩

theorem Receiver.recv_same (r : Receiver β) (slot : Nat) :
    (r.recv slot).filled = r.filled ∧ (r.recv slot).reported = r.reported := by
  unfold Receiver.recv
  split <;> exact ⟨rfl, rfl⟩

theorem Receiver.disconnect_same (r : Receiver β) :
    r.disconnect.filled = r.filled ∧ r.disconnect.reported = r.reported := by
  unfold Receiver.disconnect
  split <;> exact ⟨rfl, rfl⟩

theorem Receiver.return_same (r : Receiver β) (call : RecvCall) (answer : Answer) :
    (r.return call answer).filled = r.filled ∧ (r.return call answer).reported = r.reported := by
  cases call <;> cases answer <;> exact ⟨rfl, rfl⟩

theorem Told.step (h : Told c s) (hs : Step c s a s') : Told c s' := by
  obtain ⟨hsend, hrecv⟩ := h
  cases hs with
  | send => exact ⟨by simp [Sender.send_same, hsend], hrecv⟩
  | sendDisconnect => exact ⟨by simp [Sender.disconnect_same, hsend], hrecv⟩
  | sendTop => exact ⟨by simp [Sender.top_same, hsend], hrecv⟩
  | @write call msg sz n =>
    refine ⟨?_, hrecv⟩
    simp only [Sender.write]
    split
    · cases call <;> exact hsend
    · cases hset : c.sendHandler <;> simp [hset, hsend]
  | sendClosed => exact ⟨hsend, hrecv⟩
  | recv => exact ⟨hsend, by simp [Receiver.recv_same, hrecv]⟩
  | recvDisconnect => exact ⟨hsend, by simp [Receiver.disconnect_same, hrecv]⟩
  | @recvTop call =>
    refine ⟨hsend, ?_⟩
    simp only [Receiver.top, Receiver.decodeInto]
    cases hset : c.recvHandler <;> (repeat' split) <;>
      simp_all [Receiver.return_same]
  | read => exact ⟨hsend, hrecv⟩
  | recvClosed => exact ⟨hsend, hrecv⟩
  | store => exact ⟨hsend, hrecv⟩

/-- What is left of the written messages when the receiver has its part. -/
theorem Inv.ahead (h : Inv c K s) :
    ∃ left tail, s.sender.whole = s.receiver.filled.map Prod.snd ++ left ∧
      Ahead K s.receiver left tail ∧ s.receiver.rBuf ++ s.wire = K.stream left ++ tail := by
  obtain ⟨left, hleft⟩ := h.received
  obtain ⟨tail, hwritten, htail⟩ := h.sender.stream
  have hbuf : s.receiver.rBuf ++ s.wire = K.stream left ++ tail := by
    have hsame := h.receiver.conserved
    rw [hwritten, ← hleft, Codec.stream_append, List.append_assoc, List.append_assoc] at hsame
    exact List.append_cancel_left hsame
  refine ⟨left, tail, hleft.symm, ⟨fun m hm => ?_, fun hne => (htail hne).2.2, ?_⟩, hbuf⟩
  · refine h.sender.valid m (List.reduceOption_mem_iff.mp ?_)
    refine h.sender.accepted.subset (List.mem_append_left _ ?_)
    rw [← hleft]
    exact List.mem_append_right _ hm
  · exact ⟨s.wire, hbuf⟩

theorem Inv.step (h : Inv c K s) {encoder : Encoder β}
    (henc : ∀ m, K.Valid m → encoder.encode m = K.encode m) (hc : c.encodeHandler = some encoder)
    (hdec : c.decodeHandler = some K.decode) (hs : Step c s a s') (hp : Proper K s a) :
    Inv c K s' := by
  cases hs with
  | send hphase =>
    refine ⟨h.sender.send hphase hp, ?_, ?_⟩
    · simpa [Sender.send_same] using h.receiver
    · simpa [Sender.send_same] using h.received
  | sendDisconnect hphase =>
    refine ⟨h.sender.disconnect hphase, ?_, ?_⟩
    · simpa [Sender.disconnect_same] using h.receiver
    · simpa [Sender.disconnect_same] using h.received
  | @sendTop call hphase =>
    refine ⟨h.sender.top henc hc hphase, ?_, ?_⟩
    · simpa [Sender.top_same] using h.receiver
    · simpa [Sender.top_same] using h.received
  | @write call msg sz n hphase hn hconn =>
    have hwritten : (s.sender.write c call msg sz n).written =
        s.sender.written ++ s.sender.wBuf.take n := by
      unfold Sender.write
      cases call <;> (repeat' split) <;> rfl
    have hwhole : s.sender.whole <+: (s.sender.write c call msg sz n).whole := by
      unfold Sender.write
      split
      · cases call <;> exact List.prefix_rfl
      · exact List.prefix_append _ _
    refine ⟨h.sender.write hphase hn, ?_, h.received.trans hwhole⟩
    rw [hwritten]
    exact h.receiver.extend _
  | sendClosed => exact ⟨h.sender.close _, h.receiver, h.received⟩
  | recv hphase =>
    exact ⟨h.sender, h.receiver.recv hphase hp, by simpa [Receiver.recv_same] using h.received⟩
  | recvDisconnect hphase =>
    exact ⟨h.sender, h.receiver.disconnect hphase,
      by simpa [Receiver.disconnect_same] using h.received⟩
  | recvTop hphase =>
    obtain ⟨left, tail, hwhole, hahead, -⟩ := h.ahead
    obtain ⟨hnext, found, hfilled, hfound⟩ := h.receiver.top hdec hphase hahead
    refine ⟨h.sender, hnext, ?_⟩
    rw [hfilled, hwhole]
    exact (List.prefix_append_right_inj _).mpr hfound
  | read hphase _ hwire _ => exact ⟨h.sender, h.receiver.read hphase hwire, h.received⟩
  | recvClosed => exact ⟨h.sender, h.receiver.close _, h.received⟩
  | store => exact ⟨h.sender, h.receiver.setMem _, h.received⟩

/-- A receiver that waits with nothing on the wire has all there is. -/
theorem Inv.received_all (h : Inv c K s) {call : RecvCall} (hphase : s.receiver.phase = .reading call)
    (hwire : s.wire = []) : s.receiver.filled.map Prod.snd = s.sender.whole := by
  obtain ⟨left, tail, hwhole, hahead, hbuf⟩ := h.ahead
  cases left with
  | nil => rw [hwhole, List.append_nil]
  | cons m rest =>
    have hm : K.Valid m := hahead.valid m (by simp)
    have hzero := h.receiver.reading call hphase m
    rw [hwire, List.append_nil] at hbuf
    rw [hbuf, Codec.stream_cons, List.append_assoc, K.decode_encode m m _ hm] at hzero
    exact absurd (List.length_eq_zero_iff.mp hzero) (K.encode_ne_nil m hm)

end System

/-- **Blocking calls deliver.** Over the socket, however it cuts the bytes
and whoever closes what and when: the messages written whole are the first
that `send` was given, and those it answered `true` for, and at most one
more; the slots filled are the first that `recv` was given, in their order,
and hold the first of these messages, in theirs; the slots `recv` answered
`true` for are filled, and at most one more is. Each handler hears of each
message once. A receiver that waits for bytes when none are on the way has
every message that was written whole. -/
theorem sync_delivery {encoder : Encoder β}
    (henc : ∀ m, K.Valid m → encoder.encode m = K.encode m) (hc : c.encodeHandler = some encoder)
    (hdec : c.decodeHandler = some K.decode) {tr : List (Event β)} {s : State β}
    (h : ((lts c).guarded (Proper K)).Run tr s) :
    (acked s.sender.returned <+: s.sender.whole ∧
        s.sender.whole.length ≤ (acked s.sender.returned).length + 1 ∧
        s.sender.whole <+: s.sender.sent.reduceOption) ∧
      (s.receiver.filled.map Prod.snd <+: s.sender.whole ∧
        s.receiver.filled.map Prod.fst <+: s.receiver.slots ∧
        served s.receiver.returned <+: s.receiver.filled.map Prod.fst ∧
        s.receiver.filled.length ≤ (served s.receiver.returned).length + 1) ∧
      Told c s ∧
      (∀ call, s.receiver.phase = .reading call → s.wire = [] →
        s.receiver.filled.map Prod.snd = s.sender.whole) := by
  have hinv : Inv c K s := by
    refine Lts.Run.guarded_invariant ?_ (fun _ _ _ h hs hp => h.step henc hc hdec hs hp) h
    rintro s ⟨mem, rfl⟩
    exact ⟨senderInv_new, receiverInv_new mem, List.nil_prefix⟩
  have htold : Told c s := by
    refine Lts.Run.invariant (I := fun _ s => Told c s) ?_ (fun _ _ _ _ _ h hs => h.step hs)
      h.unguarded
    rintro s ⟨mem, rfl⟩
    simp [Told, State.new, Sender.new, Receiver.new]
  refine ⟨⟨hinv.sender.ackedPrefix, hinv.sender.ackedLength, ?_⟩,
    ⟨hinv.received, hinv.receiver.order, hinv.receiver.servedPrefix, hinv.receiver.servedLength⟩,
    htold, fun call hphase hwire => hinv.received_all hphase hwire⟩
  exact (List.prefix_append _ _).trans hinv.sender.accepted

/-! ## Two messages, the second cut short -/

open HighJump.Net.TcpConnRecv (myCodec hello world)

def testEncoder : Encoder (List UInt8) where
  encode m := m.take 5
  fits v := by
    simp only [List.length_take, mtu]
    omega

def testConn : Conn (List UInt8) := ⟨some testEncoder, true, some myCodec.decode, true, 65535⟩

def cutTrace : List (Event (List UInt8)) :=
  [.send (some hello), .sendTop, .write 5, .sendTop, .recv 1, .recvTop, .read (hello.take 3),
    .recvTop, .read (hello.drop 3), .recvTop, .recvTop, .send (some world), .sendTop, .write 2,
    .recv 2, .recvTop, .read (world.take 2), .recvTop]

theorem cut_run :
    ∃ s, ((lts testConn).guarded (Proper myCodec)).Run cutTrace s ∧
      s.receiver.phase = .reading (.recv 2) ∧ s.wire = [] ∧ s.sender.whole = [hello] := by
  have hvalid : ∀ w m : List UInt8, w.length = 5 → some w = some m → myCodec.Valid m := by
    rintro w m hw ⟨⟩
    exact hw
  have h0 : ((lts testConn).guarded (Proper myCodec)).Run [] _ := .start ⟨fun _ => [], rfl⟩
  have h1 := h0.snocGuarded (@Step.send _ testConn _ (some hello) rfl)
    (fun m hm => hvalid hello m rfl hm)
  have h2 := h1.snocGuarded (.sendTop rfl) trivial
  have h3 := h2.snocGuarded (@Step.write _ testConn _ _ _ _ 5 rfl (by decide) (by decide)) trivial
  have h4 := h3.snocGuarded (.sendTop rfl) trivial
  have h5 := h4.snocGuarded (@Step.recv _ testConn _ 1 rfl) (Nat.succ_ne_zero _)
  have h6 := h5.snocGuarded (.recvTop rfl) trivial
  have h7 := h6.snocGuarded (@Step.read _ testConn _ _ (hello.take 3) (hello.drop 3) rfl
    (by decide) rfl (by decide)) trivial
  have h8 := h7.snocGuarded (.recvTop rfl) trivial
  have h9 := h8.snocGuarded (@Step.read _ testConn _ _ (hello.drop 3) [] rfl
    (by decide) rfl (by decide)) trivial
  have h10 := h9.snocGuarded (.recvTop rfl) trivial
  have h11 := h10.snocGuarded (.recvTop rfl) trivial
  have h12 := h11.snocGuarded (@Step.send _ testConn _ (some world) rfl)
    (fun m hm => hvalid world m rfl hm)
  have h13 := h12.snocGuarded (.sendTop rfl) trivial
  have h14 := h13.snocGuarded (@Step.write _ testConn _ _ _ _ 2 rfl (by decide) (by decide)) trivial
  have h15 := h14.snocGuarded (@Step.recv _ testConn _ 2 rfl) (Nat.succ_ne_zero _)
  have h16 := h15.snocGuarded (.recvTop rfl) trivial
  have h17 := h16.snocGuarded (@Step.read _ testConn _ _ (world.take 2) [] rfl
    (by decide) rfl (by decide)) trivial
  have h18 := h17.snocGuarded (.recvTop rfl) trivial
  exact ⟨_, h18, rfl, rfl, rfl⟩

/-- The theorem on that run: the receiver has "hello", and waits for good. -/
theorem sync_delivery_cut :
    ∃ s, ((lts testConn).guarded (Proper myCodec)).Run cutTrace s ∧
      s.receiver.filled.map Prod.snd = [hello] := by
  obtain ⟨s, hrun, hphase, hwire, hwhole⟩ := cut_run
  have henc : ∀ m, myCodec.Valid m → testEncoder.encode m = myCodec.encode m := by
    intro m hm
    exact List.take_of_length_le (Nat.le_of_eq hm)
  obtain ⟨-, -, -, hall⟩ := sync_delivery henc rfl rfl hrun
  exact ⟨s, hrun, (hall _ hphase hwire).trans hwhole⟩

end HighJump.Net.TcpConnSync
