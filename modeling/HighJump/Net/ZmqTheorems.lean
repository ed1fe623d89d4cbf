/-
HighJump.Net.ZmqTheorems — messages keep their boundaries, and relays
their order.

`multipart_delivery` is about both ends of a line stepping in any order,
over any transport between them. `Inv` says of the code alone which
frames the two loops have exchanged with libzmq: those of the lists sent,
and those of the lists received. What the transport promises relates the
two, and that the messages themselves agree is left to
`Lib.prefix_of_wire`, once, at the end of a run.

`relays_deliver` is about any number of relays in a row. `Relay.Inv` says
of one relay what it gave in terms of what it took, and `Ordered` and
`Lossless` what it took in terms of what the one before it gave; the
induction along the row comes last.
-/
import HighJump.Net.Zmq

namespace HighJump.Net.Zmq

open HighJump.Lib

/-! ## Multi-part messages -/

section Multipart

variable {T : Transport (Frame Part)} {s s' : State} {a : Event}

/-- The messages among the lists that were sent: of an empty one nothing
goes onto the line. -/
def State.messagesSent (s : State) : List (List Part) := s.sent.filter fun m => !m.isEmpty

/-- The parts of the running `send_multipart` that libzmq has. -/
def State.done (s : State) : List Part :=
  match s.sending with
  | none => []
  | some (parts, i) => parts.take i

/-- The frames of the message that is being received. -/
def Reception.taken : Reception → List (Frame Part)
  | .idle => []
  | .waiting dst => openFrames dst
  | .asking dst true => openFrames dst
  | .asking dst false => frames dst

/-- What holds while calls fail at their first part only. -/
structure Inv (s : State) : Prop where
  index : ∀ parts i, s.sending = some (parts, i) → i < parts.length
  accepted : s.accepted = wire s.messagesSent ++ openFrames s.done
  asked : ∀ dst more, s.receiving = .asking dst more → dst ≠ []
  receivedNe : ∀ m ∈ s.received, m ≠ []
  handed : s.handed = wire s.received ++ s.receiving.taken

theorem inv_new : Inv .new where
  index := nofun
  accepted := rfl
  asked := nofun
  receivedNe := nofun
  handed := rfl

theorem messagesSent_ne : ∀ m ∈ s.messagesSent, m ≠ [] := by
  intro m hm
  simpa using (List.mem_filter.mp hm).2

theorem Inv.callSend (h : Inv s) (hidle : s.sending = none) (parts : List Part) :
    Inv (s.callSend parts) := by
  have hdone : s.done = [] := by simp [State.done, hidle]
  unfold State.callSend
  split
  next hempty =>
    refine ⟨h.index, ?_, h.asked, h.receivedNe, h.handed⟩
    have hsame : State.messagesSent { s with sent := s.sent ++ [parts] } = s.messagesSent := by
      simp [State.messagesSent, hempty]
    rw [hsame]
    exact h.accepted
  next hparts =>
    refine ⟨?_, ?_, h.asked, h.receivedNe, h.handed⟩
    · rintro _ _ ⟨⟩
      exact List.length_pos_iff.mpr (by simpa using hparts)
    · have hacc := h.accepted
      rwa [hdone] at hacc

theorem Inv.sendPart (h : Inv s) {parts : List Part} {i : Nat} {part : Part}
    (hs : s.sending = some (parts, i)) (hpart : parts[i]? = some part) :
    Inv (s.sendPart parts i part .ok) := by
  have hdone : s.done = parts.take i := by simp [State.done, hs]
  have hacc : s.accepted = wire s.messagesSent ++ openFrames (parts.take i) := by
    rw [h.accepted, hdone]
  have htake : parts.take (i + 1) = parts.take i ++ [part] := by
    rw [List.take_add_one, hpart]
    rfl
  simp only [State.sendPart]
  by_cases hmore : i + 1 < parts.length
  · rw [if_pos hmore]
    refine ⟨?_, ?_, h.asked, h.receivedNe, h.handed⟩
    · rintro _ _ ⟨⟩
      exact hmore
    · show s.accepted ++ [⟨part, decide (i + 1 < parts.length)⟩] =
        wire s.messagesSent ++ openFrames (parts.take (i + 1))
      rw [htake, openFrames_concat, hacc, decide_eq_true hmore, List.append_assoc]
  · rw [if_neg hmore]
    refine ⟨nofun, ?_, h.asked, h.receivedNe, h.handed⟩
    have hall : parts = parts.take i ++ [part] := by
      rw [← htake, List.take_of_length_le (Nat.le_of_not_lt hmore)]
    have hsent : (s.sent ++ [parts]).filter (fun m => !m.isEmpty) = s.messagesSent ++ [parts] := by
      rw [hall]
      simp [State.messagesSent]
    show s.accepted ++ [⟨part, decide (i + 1 < parts.length)⟩] =
      wire ((s.sent ++ [parts]).filter fun m => !m.isEmpty) ++ openFrames []
    rw [hsent, wire_concat, hall, frames_concat, ← hall, hacc, decide_eq_false hmore,
      openFrames_nil, List.append_nil, List.append_assoc]

theorem Inv.recvPart (h : Inv s) {dst : List Part} (hr : s.receiving = .waiting dst)
    (frame : Frame Part) : Inv (s.recvPart dst frame) := by
  have hhanded : s.handed = wire s.received ++ openFrames dst := by rw [h.handed, hr]; rfl
  refine ⟨h.index, h.accepted, ?_, h.receivedNe, ?_⟩
  · rintro _ _ ⟨⟩
    simp
  · obtain ⟨part, more⟩ := frame
    show s.handed ++ [⟨part, more⟩] =
      wire s.received ++ Reception.taken (.asking (dst ++ [part]) more)
    cases more with
    | true => rw [hhanded, Reception.taken, openFrames_concat, List.append_assoc]
    | false => rw [hhanded, Reception.taken, frames_concat, List.append_assoc]

theorem Inv.rcvmore (h : Inv s) {dst : List Part} {more : Bool}
    (hr : s.receiving = .asking dst more) : Inv (s.rcvmore dst more) := by
  have hhanded := h.handed
  rw [hr] at hhanded
  cases more with
  | true => exact ⟨h.index, h.accepted, nofun, h.receivedNe, hhanded⟩
  | false =>
    refine ⟨h.index, h.accepted, nofun, ?_, ?_⟩
    · intro m hm
      rcases List.mem_append.mp hm with hm | hm
      · exact h.receivedNe m hm
      · rw [List.mem_singleton.mp hm]
        exact h.asked dst false hr
    · show s.handed = wire (s.received ++ [dst]) ++ []
      rw [hhanded, wire_concat, List.append_nil]
      rfl

theorem Inv.step (h : Inv s) (hs : Step T s a s') (hclean : AllOrNothing s a) : Inv s' := by
  cases hs with
  | callSend hidle => exact h.callSend hidle _
  | @send parts i part answer hsending hpart =>
    cases answer with
    | ok => exact h.sendPart hsending hpart
    | eintr => exact h
    | error =>
      have hdone : s.done = [] := by
        rw [State.done, hsending, hclean parts i hsending]
        rfl
      have hacc := h.accepted
      rw [hdone] at hacc
      exact ⟨nofun, hacc, h.asked, h.receivedNe, h.handed⟩
  | callRecv hidle =>
    have hhanded := h.handed
    rw [hidle] at hhanded
    exact ⟨h.index, h.accepted, nofun, h.receivedNe, hhanded⟩
  | recv hr _ => exact h.recvPart hr _
  | recvEintr _ => exact h
  | @recvError dst hr =>
    have hhanded := h.handed
    rw [hr, hclean dst hr] at hhanded
    exact ⟨h.index, h.accepted, nofun, h.receivedNe, hhanded⟩
  | @rcvmore dst more told hr =>
    rw [show told = true from hclean, Bool.true_and]
    exact h.rcvmore hr

/-- What is on the line in whole messages are the lists sent. -/
theorem Inv.messages_accepted (h : Inv s) : messages s.accepted = s.messagesSent := by
  rw [h.accepted, messages_wire messagesSent_ne]

/-- A frame is handed out by the transport or not at all, and what was
sent stays sent. -/
theorem handed_cases (hs : Step T s a s') :
    s.messagesSent <+: s'.messagesSent ∧
      (s'.handed = s.handed ∨ ∃ f, T s.accepted s.handed f ∧ s'.handed = s.handed ++ [f]) := by
  have hgrow : ∀ parts, s.messagesSent <+:
      State.messagesSent { s with sent := s.sent ++ [parts] } := fun parts =>
    (List.prefix_append s.sent [parts]).filter _
  cases hs with
  | @callSend parts _ =>
    unfold State.callSend
    split
    · exact ⟨hgrow parts, .inl rfl⟩
    · exact ⟨List.prefix_rfl, .inl rfl⟩
  | @send parts i part answer _ _ =>
    cases answer with
    | ok =>
      simp only [State.sendPart]
      split
      · exact ⟨List.prefix_rfl, .inl rfl⟩
      · exact ⟨hgrow parts, .inl rfl⟩
    | eintr => exact ⟨List.prefix_rfl, .inl rfl⟩
    | error => exact ⟨List.prefix_rfl, .inl rfl⟩
  | callRecv _ => exact ⟨List.prefix_rfl, .inl rfl⟩
  | @recv dst frame _ hT => exact ⟨List.prefix_rfl, .inr ⟨frame, hT, rfl⟩⟩
  | recvEintr _ => exact ⟨List.prefix_rfl, .inl rfl⟩
  | recvError _ => exact ⟨List.prefix_rfl, .inl rfl⟩
  | rcvmore _ =>
    unfold State.rcvmore
    split
    · exact ⟨List.prefix_rfl, .inl rfl⟩
    · exact ⟨List.prefix_rfl, .inl rfl⟩

/-- The frames handed out are those of some of the messages sent. -/
def Selected (s : State) : Prop :=
  ∃ ms : List (List Part), ms.Sublist s.messagesSent ∧ s.handed <+: wire ms

theorem Selected.step (hT : T.Atomic) (hinv : Inv s) (h : Selected s) (hs : Step T s a s') :
    Selected s' := by
  obtain ⟨hgrow, heq | ⟨f, hf, heq⟩⟩ := handed_cases hs
  · obtain ⟨ms, hms, hhanded⟩ := h
    exact ⟨ms, hms.trans hgrow.sublist, heq ▸ hhanded⟩
  · obtain ⟨ms, hms, hhanded⟩ := hT _ _ _ hf
    rw [hinv.messages_accepted] at hms
    exact ⟨ms, hms.trans hgrow.sublist, heq ▸ hhanded⟩

/-- Those of all of them, as far as it has come. -/
theorem handed_step (hT : T.Whole) (hinv : Inv s) (h : s.handed <+: wire s.messagesSent)
    (hs : Step T s a s') : s'.handed <+: wire s'.messagesSent := by
  obtain ⟨hgrow, hcases⟩ := handed_cases hs
  have hwire : wire s.messagesSent <+: wire s'.messagesSent := by
    obtain ⟨tail, htail⟩ := hgrow
    rw [← htail, wire_append]
    exact List.prefix_append _ _
  refine List.IsPrefix.trans ?_ hwire
  rcases hcases with heq | ⟨f, hf, heq⟩
  · rwa [heq]
  · rw [heq, ← hinv.messages_accepted]
    exact hT _ _ _ hf

/-- The messages that have arrived are the first of those whose frames
were handed out. -/
theorem Inv.received_prefix (h : Inv s) {ms : List (List Part)} (hms : ∀ m ∈ ms, m ≠ [])
    (hhanded : s.handed <+: wire ms) : s.received <+: ms := by
  obtain ⟨rest, hrest⟩ := hhanded
  rw [h.handed, List.append_assoc] at hrest
  obtain ⟨tail, rfl, -⟩ := prefix_of_wire h.receivedNe hms hrest
  exact List.prefix_append _ _

/-- And all of them, when all were handed out and no call is running. -/
theorem Inv.received_all (h : Inv s) (hr : s.receiving = .idle)
    (hall : s.handed = wire s.messagesSent) : s.received = s.messagesSent := by
  have hcut : wire s.received ++ [] = wire s.messagesSent := by
    rw [← hall, h.handed, hr]
    rfl
  obtain ⟨tail, hsent, hnil⟩ := prefix_of_wire h.receivedNe messagesSent_ne hcut
  have htail : tail = [] :=
    wire_eq_nil (fun m hm => messagesSent_ne m (hsent ▸ List.mem_append_right _ hm)) hnil.symm
  rw [hsent, htail, List.append_nil]

/-- One pair of sockets: whole messages, in order. -/
def pair : Transport (Frame Part) :=
  fun accepted handed f => handed ++ [f] <+: wire (messages accepted)

end Multipart

/-! ## Relays -/

section Relays

variable {r : Relay} {buf : Part}

/-- What one relay gave, by where it is. -/
def Relay.Inv (r : Relay) : Prop :=
  match r.phase with
  | .reading => r.given = r.taken ∧ r.dropped = [] ∧ ∀ m ∈ r.taken, isPoisonPill m = false
  | .holding buf =>
    r.taken = r.given ++ [buf] ∧ r.dropped = [] ∧ ∀ m ∈ r.given, isPoisonPill m = false
  | .stopped false =>
    r.dropped = [] ∧ ∃ ms pill, r.taken = ms ++ [pill] ∧ r.given = r.taken ∧
      isPoisonPill pill = true ∧ ∀ m ∈ ms, isPoisonPill m = false
  | .stopped true =>
    r.taken = r.given ++ r.dropped ∧ r.dropped.length ≤ 1 ∧
      ∀ m ∈ r.given, isPoisonPill m = false

theorem Relay.inv_new : Relay.new.Inv := by simp [Relay.Inv, Relay.new]

theorem Relay.Inv.read (h : r.Inv) (hp : r.phase = .reading) (buf : Part) : (r.read buf).Inv := by
  simp only [Relay.Inv, hp] at h
  obtain ⟨hgiven, hdropped, hclear⟩ := h
  refine ⟨?_, hdropped, ?_⟩
  · show r.taken ++ [buf] = r.given ++ [buf]
    rw [hgiven]
  · show ∀ m ∈ r.given, isPoisonPill m = false
    rwa [hgiven]

theorem Relay.Inv.forward (h : r.Inv) (hp : r.phase = .holding buf) : (r.forward buf).Inv := by
  simp only [Relay.Inv, hp] at h
  obtain ⟨htaken, hdropped, hclear⟩ := h
  by_cases hpill : isPoisonPill buf = true
  · simp only [Relay.Inv, Relay.forward, hpill, if_true]
    exact ⟨hdropped, r.given, buf, htaken, htaken.symm, hpill, hclear⟩
  · simp only [Relay.Inv, Relay.forward, hpill]
    refine ⟨htaken.symm, hdropped, fun m hm => ?_⟩
    rw [htaken, List.mem_append, List.mem_singleton] at hm
    rcases hm with hm | rfl
    · exact hclear m hm
    · simpa using hpill

theorem Relay.Inv.drop (h : r.Inv) (hp : r.phase = .holding buf) : (r.drop buf).Inv := by
  simp only [Relay.Inv, hp] at h
  obtain ⟨htaken, hdropped, hclear⟩ := h
  simp only [Relay.Inv, Relay.drop, hdropped, htaken]
  exact ⟨rfl, Nat.le_refl 1, hclear⟩

theorem Relay.Inv.fail (h : r.Inv) (hp : r.phase = .reading) : r.fail.Inv := by
  simp only [Relay.Inv, hp] at h
  obtain ⟨hgiven, hdropped, hclear⟩ := h
  simp only [Relay.Inv, Relay.fail, hdropped, hgiven]
  simpa using hclear

/-- A relay gives what it takes, up to the message that ends it. -/
theorem Relay.Inv.given_isPrefix (h : r.Inv) : r.given <+: through isPoisonPill r.taken := by
  unfold Relay.Inv at h
  split at h
  next =>
    obtain ⟨hgiven, -, hclear⟩ := h
    rw [through_of_unmarked hclear, hgiven]
  next =>
    obtain ⟨htaken, -, hclear⟩ := h
    rw [htaken, through_concat hclear]
    exact List.prefix_append _ _
  next =>
    obtain ⟨-, ms, pill, htaken, hgiven, -, hclear⟩ := h
    rw [hgiven, htaken, through_concat hclear]
  next =>
    obtain ⟨htaken, -, hclear⟩ := h
    have hmono : through isPoisonPill r.given <+: through isPoisonPill r.taken :=
      through_mono (by rw [htaken]; exact List.prefix_append _ _)
    rwa [through_of_unmarked hclear] at hmono

/-- One that was ended by such a message has given it on. -/
theorem Relay.Inv.given_all (h : r.Inv) (hp : r.phase = .stopped false) :
    r.given = through isPoisonPill r.taken ∧ ∃ m ∈ r.taken, isPoisonPill m = true := by
  simp only [Relay.Inv, hp] at h
  obtain ⟨-, ms, pill, htaken, hgiven, hpill, hclear⟩ := h
  refine ⟨?_, pill, ?_, hpill⟩
  · rw [hgiven, htaken, through_concat hclear]
  · simp [htaken]

theorem Relay.Inv.dropped_le (h : r.Inv) : r.dropped.length ≤ 1 := by
  unfold Relay.Inv at h
  split at h
  next => simp [h.2.1]
  next => simp [h.2.1]
  next => simp [h.1]
  next => exact h.2.1

variable {T : Nat → Transport Part} {s s' : Pipeline} {a : Move}

/-- In a step every line may accept more, and may hand out one message to
the relay that reads from it. -/
def Grows (T : Nat → Transport Part) (s s' : Pipeline) (j : Nat) : Prop :=
  s.accepted j <+: s'.accepted j ∧
    ((s'.relays j).taken = (s.relays j).taken ∨
      ∃ m, T j (s.accepted j) (s.relays j).taken m ∧
        (s'.relays j).taken = (s.relays j).taken ++ [m])

theorem grows_setRelay {i : Nat} {r : Relay} (hgiven : (s.relays i).given <+: r.given)
    (htaken : r.taken = (s.relays i).taken ∨
      ∃ m, T i (s.accepted i) (s.relays i).taken m ∧ r.taken = (s.relays i).taken ++ [m])
    (j : Nat) : Grows T s (s.setRelay i r) j := by
  have hrelays : ∀ k, k ≠ i → (s.setRelay i r).relays k = s.relays k := fun k hk => by
    simp [Pipeline.setRelay, hk]
  have hself : (s.setRelay i r).relays i = r := by simp [Pipeline.setRelay]
  constructor
  · cases j with
    | zero => exact List.prefix_rfl
    | succ j =>
      show (s.relays j).given <+: ((s.setRelay i r).relays j).given
      by_cases hj : j = i
      · rw [hj, hself]
        exact hgiven
      · rw [hrelays j hj]
  · by_cases hj : j = i
    · rw [hj, hself]
      exact htaken
    · rw [hrelays j hj]
      exact .inl rfl

theorem grows_of_step (hs : Pipeline.Step T s a s') (j : Nat) : Grows T s s' j := by
  cases hs with
  | @push m =>
    refine ⟨?_, .inl rfl⟩
    cases j with
    | zero => exact List.prefix_append s.pushed [m]
    | succ j => exact List.prefix_rfl
  | @read i buf _ hT =>
    exact grows_setRelay (r := (s.relays i).read buf) List.prefix_rfl (.inr ⟨buf, hT, rfl⟩) j
  | @forward i buf _ =>
    exact grows_setRelay (r := (s.relays i).forward buf) (List.prefix_append _ _) (.inl rfl) j
  | @readError i _ =>
    exact grows_setRelay (r := (s.relays i).fail) List.prefix_rfl (.inl rfl) j
  | @sendError i buf _ =>
    exact grows_setRelay (r := (s.relays i).drop buf) List.prefix_rfl (.inl rfl) j

/-- Each relay keeps its invariant, and each line what its transport
promises. -/
structure Pipeline.Inv (T : Nat → Transport Part) (s : Pipeline) : Prop where
  relay : ∀ i, (s.relays i).Inv
  ordered : ∀ i, (T i).Ordered → (s.relays i).taken.Sublist (s.accepted i)
  lossless : ∀ i, (T i).Lossless → (s.relays i).taken <+: s.accepted i

theorem Pipeline.inv_new : Pipeline.new.Inv T where
  relay _ := Relay.inv_new
  ordered _ _ := List.nil_sublist _
  lossless _ _ := List.nil_prefix

theorem relay_setRelay (h : ∀ j, (s.relays j).Inv) {i : Nat} {r : Relay} (hr : r.Inv) (j : Nat) :
    ((s.setRelay i r).relays j).Inv := by
  by_cases hj : j = i
  · subst hj; simpa [Pipeline.setRelay] using hr
  · simpa [Pipeline.setRelay, hj] using h j

theorem Pipeline.Inv.step (h : s.Inv T) (hs : Pipeline.Step T s a s') : s'.Inv T where
  relay := by
    cases hs with
    | push => exact h.relay
    | @read i buf hp _ => exact relay_setRelay h.relay ((h.relay i).read hp buf)
    | @forward i buf hp => exact relay_setRelay h.relay ((h.relay i).forward hp)
    | @readError i hp => exact relay_setRelay h.relay ((h.relay i).fail hp)
    | @sendError i buf hp => exact relay_setRelay h.relay ((h.relay i).drop hp)
  ordered i hT := by
    obtain ⟨hgrow, heq | ⟨m, hm, heq⟩⟩ := grows_of_step hs i
    · exact heq ▸ (h.ordered i hT).trans hgrow.sublist
    · exact heq ▸ (hT _ _ _ hm).trans hgrow.sublist
  lossless i hT := by
    obtain ⟨hgrow, heq | ⟨m, hm, heq⟩⟩ := grows_of_step hs i
    · exact heq ▸ (h.lossless i hT).trans hgrow
    · exact heq ▸ (hT _ _ _ hm).trans hgrow

/-- What relay `i` gave is a beginning of what the application pushed, up
to the message that ends relays. -/
theorem Pipeline.Inv.given_isPrefix (h : s.Inv T) (i : Nat) (hT : ∀ j ≤ i, (T j).Lossless) :
    (s.relays i).given <+: through isPoisonPill s.pushed := by
  induction i with
  | zero =>
    exact ((h.relay 0).given_isPrefix).trans (through_mono (h.lossless 0 (hT 0 (by omega))))
  | succ i ih =>
    have hbefore := ih fun j hj => hT j (by omega)
    have htaken := (h.lossless (i + 1) (hT (i + 1) (by omega))).trans hbefore
    have hmono := through_mono (p := isPoisonPill) htaken
    rw [through_through] at hmono
    exact ((h.relay (i + 1)).given_isPrefix).trans hmono

/-- A selection of it, where lines behind the first leave messages out. -/
theorem Pipeline.Inv.given_sublist (h : s.Inv T) (i : Nat) (hfirst : (T 0).Lossless)
    (hT : ∀ j < i, (T (j + 1)).Ordered) :
    (s.relays i).given.Sublist (through isPoisonPill s.pushed) := by
  induction i with
  | zero =>
    refine (h.given_isPrefix 0 fun j hj => ?_).sublist
    rwa [Nat.le_zero.mp hj]
  | succ i ih =>
    have htaken : (s.relays (i + 1)).taken.Sublist (s.relays i).given :=
      h.ordered (i + 1) (hT i (by omega))
    have hgiven : (s.relays (i + 1)).given <+: (s.relays (i + 1)).taken :=
      ((h.relay (i + 1)).given_isPrefix).trans ( through_prefix isPoisonPill _)
    exact hgiven.sublist.trans (htaken.trans (ih fun j hj => hT j (by omega)))

/-- When relays are ended in good order, the last of them has given on
all there was to give. -/
theorem Pipeline.Inv.given_all (h : s.Inv T) (i : Nat) (hT : ∀ j ≤ i, (T j).Lossless)
    (hp : ∀ j ≤ i, (s.relays j).phase = .stopped false) :
    (s.relays i).given = through isPoisonPill s.pushed := by
  -- what was read through the mark is all there was up to it
  have hline : ∀ j ≤ i, (s.relays j).given = through isPoisonPill (s.accepted j) := by
    intro j hj
    obtain ⟨hgiven, hpill⟩ := (h.relay j).given_all (hp j hj)
    obtain ⟨rest, hrest⟩ := h.lossless j (hT j hj)
    rw [hgiven, ← hrest, through_append hpill]
  induction i with
  | zero => exact hline 0 (by omega)
  | succ i ih =>
    have hbefore := ih (fun j hj => hT j (by omega)) (fun j hj => hp j (by omega))
      (fun j hj => hline j (by omega))
    rw [hline (i + 1) (by omega), Pipeline.accepted, hbefore, through_through]

/-- A queue. -/
def fifo : Transport Part := fun accepted handed m => handed ++ [m] <+: accepted

end Relays

end HighJump.Net.Zmq
