/-
HighJump.Net.ZmqPoller — the poller of `hj/net/zmq.hpp`.

A poller keeps what `zmq_poll` wants, an array of items, and beside it an
array of user pointers; the two are kept in step by position. What it is
for is the `Registry` below: a list of registrations, each with its key,
its events and its pointer. `pollers_refine` says that any number of pollers,
moved and used in any order, answer as their registries do.

A socket item carries the descriptor 0 and a search by descriptor looks at
the descriptor only, so a search for descriptor 0 finds socket items:
`modify` and `remove` of descriptor 0 are not calls the registry speaks
of. Nor is any call with a socket that was moved from: its handle is null,
so its item would be one without a socket.
-/
import HighJump.Lib.Refine
import Mathlib.Data.List.Forall2
import Mathlib.Logic.Function.Basic

namespace HighJump.Net.ZmqPoller

open HighJump.Lib

variable {ι σ υ : Type}

section Definitions

variable [DecidableEq ι] [DecidableEq σ]

/-! ## The class -/

/-- `zmq_pollitem_t`; `none` is the null pointer. -/
structure PollItem (σ : Type) where
  socket : Option σ
  fd : Int
  events : Int16
  revents : Int16

/-- `poller` -/
structure Poller (σ υ : Type) where
  items : List (PollItem σ)
  userDatas : List (Option υ)

/-- `poller()` -/
def Poller.new : Poller σ υ := { items := [], userDatas := [] }

/-- What one call of `zmq_poll` returns: its value, whether `errno` is
`EINTR`, and what it leaves in the `revents` of each item. -/
structure Reply where
  rc : Int
  eintr : Bool
  revents : Nat → Int16

/-- `rc >= 0 || errno != EINTR` -/
def Reply.final (r : Reply) : Bool := decide (r.rc ≥ 0) || !r.eintr

namespace Poller

/-- `_add` -/
def add (p : Poller σ υ) (socketPtr : Option σ) (fd : Int) (events : Int16)
    (userData : Option υ) : Poller σ υ where
  items := p.items ++ [{ socket := socketPtr, fd, events, revents := 0 }]
  userDatas := p.userDatas ++ [userData]

/-- `(socket_ptr && _items[i].socket == socket_ptr) || (!socket_ptr &&
_items[i].fd == fd)` -/
def hit (socketPtr : Option σ) (fd : Int) (item : PollItem σ) : Bool :=
  (socketPtr.isSome && item.socket == socketPtr) || (socketPtr.isNone && item.fd == fd)

/-- `_modify` -/
def modify (p : Poller σ υ) (socketPtr : Option σ) (fd : Int) (events : Int16) :
    Poller σ υ × Int :=
  match p.items.findIdx? (hit socketPtr fd) with
  | some i => ({ p with items := p.items.modify i fun item => { item with events } }, 0)
  | none => (p, -1)

/-- `_remove` -/
def remove (p : Poller σ υ) (socketPtr : Option σ) (fd : Int) : Poller σ υ × Int :=
  match p.items.findIdx? (hit socketPtr fd) with
  | some i => ({ items := p.items.eraseIdx i, userDatas := p.userDatas.eraseIdx i }, 0)
  | none => (p, -1)

/-- What `zmq_poll` leaves in the items. -/
def report (items : List (PollItem σ)) (revents : Nat → Int16) : List (PollItem σ) :=
  items.mapIdx fun i item => { item with revents := revents i }

/-- `zmq_poll` writes into the items. -/
def write (p : Poller σ υ) (r : Reply) : Poller σ υ :=
  { p with items := report p.items r.revents }

/-- The loop of `poll`; `none` while the call has not returned. -/
def pollLoop : List Reply → Poller σ υ → Option (Poller σ υ × Int)
  | [], _ => none
  | r :: replies, p =>
      if r.final then some (p.write r, r.rc) else pollLoop replies (p.write r)

/-- `poll` -/
def poll (p : Poller σ υ) (replies : List Reply) : Option (Poller σ υ × Int) :=
  if p.items.isEmpty then some (p, 0) else pollLoop replies p

/-- `wait_for`: what it returns, and what it stores behind `user_data` and
`events`. A position behind the last pointer is `none`. -/
def waitFor (p : Poller σ υ) (replies : List Reply) :
    Option (Poller σ υ × Int × Option (Option υ × Int16)) := do
  let (p, rc) ← p.poll replies
  if rc ≤ 0 then return (p, rc, none)
  match p.items.findIdx? (fun item => item.revents != 0) with
  | none => return (p, rc, none)
  | some i =>
      let item ← p.items[i]?
      let userData ← p.userDatas[i]?
      return (p, rc, some (userData, item.revents))

end Poller

/-! ## What a poller is for -/

/-- What is registered: a socket or a descriptor. -/
inductive Key (σ : Type) where
  | socket (s : σ)
  | fd (n : Int)
  deriving DecidableEq

/-- The key the two arguments of the private members stand for. -/
def key (socketPtr : Option σ) (fd : Int) : Key σ :=
  match socketPtr with
  | some s => .socket s
  | none => .fd fd

structure Registration (σ υ : Type) where
  key : Key σ
  events : Int16
  userData : Option υ

abbrev Registry (σ υ : Type) := List (Registration σ υ)

namespace Registry

def modify (key : Key σ) (events : Int16) : Registry σ υ → Registry σ υ
  | [] => []
  | r :: rs => if r.key = key then { r with events } :: rs else r :: modify key events rs

def remove (key : Key σ) : Registry σ υ → Registry σ υ
  | [] => []
  | r :: rs => if r.key = key then rs else r :: remove key rs

/-- Whether the key is registered, as the members answer it. -/
def found (key : Key σ) (rs : Registry σ υ) : Int :=
  if key ∈ rs.map Registration.key then 0 else -1

/-- The first registration with something to report. -/
def ready : Registry σ υ → (Nat → Int16) → Option (Option υ × Int16)
  | [], _ => none
  | r :: rs, revents =>
      if revents 0 ≠ 0 then some (r.userData, revents 0) else ready rs fun i => revents (i + 1)

end Registry

/-! ## Pollers and their registries -/

/-- The calls; a socket and a descriptor are handed on as the public
members hand them on. -/
inductive Act (ι σ υ : Type) where
  | add (k : ι) (socketPtr : Option σ) (fd : Int) (events : Int16) (userData : Option υ)
  | modify (k : ι) (socketPtr : Option σ) (fd : Int) (events : Int16)
  | remove (k : ι) (socketPtr : Option σ) (fd : Int)
  | waitFor (k : ι) (replies : List Reply)
  /-- move construction and move assignment -/
  | move (k other : ι)

/-- What a call answers. -/
inductive Answer (υ : Type) where
  | rc (n : Int)
  | woken (rc : Int) (stored : Option (Option υ × Int16))
  | unit

/-- The members that pass a socket pass the descriptor 0, the others a
null pointer. -/
def Pair (socketPtr : Option σ) (fd : Int) : Prop := socketPtr.isSome = true → fd = 0

/-- The calls the registry speaks of: nothing is looked up under
descriptor 0, and a wait comes to an end. -/
def Act.Plain : Act ι σ υ → Prop
  | .add _ socketPtr fd _ _ => Pair socketPtr fd
  | .modify _ socketPtr fd _ => Pair socketPtr fd ∧ key socketPtr fd ≠ .fd 0
  | .remove _ socketPtr fd => Pair socketPtr fd ∧ key socketPtr fd ≠ .fd 0
  | .waitFor _ replies => ∃ r ∈ replies, r.final = true
  | .move _ _ => True

abbrev PlainAct (ι σ υ : Type) := { a : Act ι σ υ // a.Plain }

/-- One call on the pollers; an error is a call that does not return or
that reads behind an array. -/
def step (w : ι → Poller σ υ) (a : PlainAct ι σ υ) :
    Except Unit ((ι → Poller σ υ) × Answer υ) :=
  match a.1 with
  | .add k socketPtr fd events userData =>
      .ok (Function.update w k ((w k).add socketPtr fd events userData), .rc 0)
  | .modify k socketPtr fd events =>
      let (p, rc) := (w k).modify socketPtr fd events
      .ok (Function.update w k p, .rc rc)
  | .remove k socketPtr fd =>
      let (p, rc) := (w k).remove socketPtr fd
      .ok (Function.update w k p, .rc rc)
  | .waitFor k replies =>
      match (w k).waitFor replies with
      | none => .error ()
      | some (p, rc, stored) => .ok (Function.update w k p, .woken rc stored)
  | .move k other =>
      if k = other then .ok (w, .unit)
      else .ok (Function.update (Function.update w k (w other)) other .new, .unit)

/-- The same call on the registries. -/
def spec (w : ι → Registry σ υ) (a : PlainAct ι σ υ) : (ι → Registry σ υ) × Answer υ :=
  match a.1 with
  | .add k socketPtr fd events userData =>
      (Function.update w k (w k ++ [{ key := key socketPtr fd, events, userData }]), .rc 0)
  | .modify k socketPtr fd events =>
      (Function.update w k ((w k).modify (key socketPtr fd) events),
        .rc ((w k).found (key socketPtr fd)))
  | .remove k socketPtr fd =>
      (Function.update w k ((w k).remove (key socketPtr fd)),
        .rc ((w k).found (key socketPtr fd)))
  | .waitFor k replies =>
      if w k = [] then (w, .woken 0 none)
      else
        match replies.find? Reply.final with
        | none => (w, .unit)
        | some r => (w, .woken r.rc (if r.rc ≤ 0 then none else (w k).ready r.revents))
  | .move k other =>
      if k = other then (w, .unit)
      else (Function.update (Function.update w k (w other)) other [], .unit)

end Definitions

/-! ## Items and registrations -/

/-- What an item holds of a registration. -/
structure Shows (item : PollItem σ) (r : Registration σ υ) : Prop where
  key : ZmqPoller.key item.socket item.fd = r.key
  pair : Pair item.socket item.fd
  events : item.events = r.events

structure Represents (p : Poller σ υ) (rs : Registry σ υ) : Prop where
  items : List.Forall₂ Shows p.items rs
  userDatas : p.userDatas = rs.map Registration.userData

/-- A search that is not for descriptor 0 finds what it names. -/
theorem hit_iff [DecidableEq σ] {item : PollItem σ} {r : Registration σ υ} (h : Shows item r)
    {socketPtr : Option σ} {fd : Int} (hkey : key socketPtr fd ≠ .fd 0) :
    Poller.hit socketPtr fd item = true ↔ r.key = key socketPtr fd := by
  obtain ⟨hshown, hpair, -⟩ := h
  rw [← hshown]
  cases socketPtr with
  | some s => cases hitem : item.socket <;> simp [Poller.hit, key, hitem]
  | none =>
    have hfd : fd ≠ 0 := by simpa [key] using hkey
    cases hitem : item.socket with
    | none => simp [Poller.hit, key]
    | some s =>
      have hzero : item.fd = 0 := hpair (by simp [hitem])
      simp [Poller.hit, key, hzero, Ne.symm hfd]

section Lists

variable {items : List (PollItem σ)} {rs : Registry σ υ} {socketPtr : Option σ} {fd : Int}

/-- A search ends at the first registration under the key. -/
theorem modify_items [DecidableEq σ] (events : Int16) (hkey : key socketPtr fd ≠ .fd 0)
    (h : List.Forall₂ Shows items rs) :
    match items.findIdx? (Poller.hit socketPtr fd) with
    | some i =>
        List.Forall₂ Shows (items.modify i fun item => { item with events })
            (Registry.modify (key socketPtr fd) events rs) ∧
          key socketPtr fd ∈ rs.map Registration.key
    | none =>
        Registry.modify (key socketPtr fd) events rs = rs ∧
          key socketPtr fd ∉ rs.map Registration.key := by
  induction h with
  | nil => simp [Registry.modify]
  | @cons item r items rs hshown hrest ih =>
    have hiff := hit_iff hshown hkey
    rw [List.findIdx?_cons]
    by_cases hit : Poller.hit socketPtr fd item = true
    · have hr := hiff.mp hit
      simp only [hit, if_true, Registry.modify, hr, List.modify_zero_cons, List.map_cons,
        List.mem_cons, true_or, and_true]
      exact .cons ⟨hshown.key.trans hr, hshown.pair, rfl⟩ hrest
    · have hr := mt hiff.mpr hit
      rw [if_neg hit]
      cases hfound : items.findIdx? (Poller.hit socketPtr fd) with
      | some i =>
        rw [hfound] at ih
        simp only [Option.map_some, Registry.modify, if_neg hr, List.modify_succ_cons, List.map_cons,
          List.mem_cons]
        exact ⟨.cons hshown ih.1, .inr ih.2⟩
      | none =>
        rw [hfound] at ih
        simp only [Option.map_none, Registry.modify, if_neg hr, List.map_cons, List.mem_cons, ih.1,
          true_and]
        rintro (heq | hmem)
        · exact hr heq.symm
        · exact ih.2 hmem

theorem remove_items [DecidableEq σ] (hkey : key socketPtr fd ≠ .fd 0) (h : List.Forall₂ Shows items rs) :
    match items.findIdx? (Poller.hit socketPtr fd) with
    | some i =>
        List.Forall₂ Shows (items.eraseIdx i) (Registry.remove (key socketPtr fd) rs) ∧
          (rs.map Registration.userData).eraseIdx i =
            (Registry.remove (key socketPtr fd) rs).map Registration.userData ∧
          key socketPtr fd ∈ rs.map Registration.key
    | none =>
        Registry.remove (key socketPtr fd) rs = rs ∧
          key socketPtr fd ∉ rs.map Registration.key := by
  induction h with
  | nil => simp [Registry.remove]
  | @cons item r items rs hshown hrest ih =>
    have hiff := hit_iff hshown hkey
    rw [List.findIdx?_cons]
    by_cases hit : Poller.hit socketPtr fd item = true
    · have hr := hiff.mp hit
      simp [hit, Registry.remove, hr, hrest]
    · have hr := mt hiff.mpr hit
      rw [if_neg hit]
      cases hfound : items.findIdx? (Poller.hit socketPtr fd) with
      | some i =>
        rw [hfound] at ih
        simp only [Option.map_some, Registry.remove, if_neg hr, List.eraseIdx_cons_succ,
          List.map_cons, List.mem_cons, ih.2.1, true_and]
        exact ⟨.cons hshown ih.1, .inr ih.2.2⟩
      | none =>
        rw [hfound] at ih
        simp only [Option.map_none, Registry.remove, if_neg hr, List.map_cons, List.mem_cons, ih.1,
          true_and]
        rintro (heq | hmem)
        · exact hr heq.symm
        · exact ih.2 hmem

/-- The first item with something to report is the first such
registration, and its pointer stands at the same position. -/
theorem ready_items (h : List.Forall₂ Shows items rs) :
    ∀ revents : Nat → Int16,
      match (Poller.report items revents).findIdx? (fun item => item.revents != 0) with
      | none => Registry.ready rs revents = none
      | some i => ∃ (item : PollItem σ) (userData : Option υ),
          (Poller.report items revents)[i]? = some item ∧
            (rs.map Registration.userData)[i]? = some userData ∧
            Registry.ready rs revents = some (userData, item.revents) := by
  induction h with
  | nil => simp [Registry.ready, Poller.report]
  | @cons item r items rs hshown hrest ih =>
    intro revents
    have hreport : Poller.report (item :: items) revents =
        { item with revents := revents 0 } :: Poller.report items fun i => revents (i + 1) :=
      List.mapIdx_cons
    rw [hreport, List.findIdx?_cons]
    by_cases hzero : revents 0 = 0
    · have ih := ih fun i => revents (i + 1)
      simp only [hzero, bne_self_eq_false, Bool.false_eq_true, if_false, Registry.ready, ne_eq,
        not_true_eq_false]
      cases hfound : (Poller.report items fun i => revents (i + 1)).findIdx?
          (fun item => item.revents != 0) with
      | none =>
        rw [hfound] at ih
        simpa using ih
      | some i =>
        rw [hfound] at ih
        simpa using ih
    · simp [hzero, Registry.ready]

theorem shows_report (h : List.Forall₂ Shows items rs) :
    ∀ revents : Nat → Int16, List.Forall₂ Shows (Poller.report items revents) rs := by
  induction h with
  | nil => exact fun _ => .nil
  | cons hshown _ ih =>
    intro revents
    rw [Poller.report, List.mapIdx_cons]
    exact .cons ⟨hshown.key, hshown.pair, hshown.events⟩ (ih fun i => revents (i + 1))

/-- What `zmq_poll` left before is gone. -/
theorem report_report (items : List (PollItem σ)) (f g : Nat → Int16) :
    Poller.report (Poller.report items f) g = Poller.report items g := by
  rw [Poller.report, Poller.report, List.mapIdx_mapIdx]
  rfl

end Lists

/-! ## One call -/

/-- The loop of `poll` ends with the first reply that is not an
interruption. -/
theorem pollLoop_eq {replies : List Reply} :
    ∀ {p : Poller σ υ}, p.pollLoop replies =
      (replies.find? Reply.final).map fun r => (p.write r, r.rc) := by
  induction replies with
  | nil => exact rfl
  | cons r replies ih =>
    intro p
    rw [Poller.pollLoop, List.find?_cons]
    cases hr : r.final with
    | true => rfl
    | false =>
      rw [if_neg (by simp), ih]
      cases replies.find? Reply.final with
      | none => rfl
      | some last => simp [Poller.write, report_report]

variable {p : Poller σ υ} {rs : Registry σ υ}

theorem represents_add (h : Represents p rs) {socketPtr : Option σ} {fd : Int}
    (hpair : Pair socketPtr fd) (events : Int16) (userData : Option υ) :
    Represents (p.add socketPtr fd events userData)
      (rs ++ [{ key := key socketPtr fd, events, userData }]) where
  items := List.rel_append h.items (.cons ⟨rfl, hpair, rfl⟩ .nil)
  userDatas := by simp [Poller.add, h.userDatas]

theorem represents_modify [DecidableEq σ] (h : Represents p rs) {socketPtr : Option σ} {fd : Int}
    (hkey : key socketPtr fd ≠ .fd 0) (events : Int16) :
    (p.modify socketPtr fd events).2 = Registry.found (key socketPtr fd) rs ∧
      Represents (p.modify socketPtr fd events).1
        (Registry.modify (key socketPtr fd) events rs) := by
  have hitems := modify_items events hkey h.items
  have hdatas : (Registry.modify (key socketPtr fd) events rs).map Registration.userData =
      rs.map Registration.userData := by
    clear h hitems
    induction rs with
    | nil => rfl
    | cons r rs ih =>
      rw [Registry.modify]
      split
      · rfl
      · rw [List.map_cons, ih, List.map_cons]
  rw [Poller.modify, Registry.found]
  cases hfound : p.items.findIdx? (Poller.hit socketPtr fd) with
  | some i =>
    rw [hfound] at hitems
    exact ⟨(if_pos hitems.2).symm, hitems.1, h.userDatas.trans hdatas.symm⟩
  | none =>
    rw [hfound] at hitems
    refine ⟨(if_neg hitems.2).symm, ?_⟩
    rw [hitems.1]
    exact h

theorem represents_remove [DecidableEq σ] (h : Represents p rs) {socketPtr : Option σ} {fd : Int}
    (hkey : key socketPtr fd ≠ .fd 0) :
    (p.remove socketPtr fd).2 = Registry.found (key socketPtr fd) rs ∧
      Represents (p.remove socketPtr fd).1 (Registry.remove (key socketPtr fd) rs) := by
  have hitems := remove_items hkey h.items
  rw [Poller.remove, Registry.found]
  cases hfound : p.items.findIdx? (Poller.hit socketPtr fd) with
  | some i =>
    rw [hfound] at hitems
    refine ⟨(if_pos hitems.2.2).symm, hitems.1, ?_⟩
    rw [← hitems.2.1, ← h.userDatas]
  | none =>
    rw [hfound] at hitems
    refine ⟨(if_neg hitems.2).symm, ?_⟩
    rw [hitems.1]
    exact h

/-- A wait that comes to an end. -/
theorem represents_waitFor (h : Represents p rs) {replies : List Reply}
    (hends : ∃ r ∈ replies, r.final = true) (hne : rs ≠ []) :
    ∃ r, replies.find? Reply.final = some r ∧ ∃ p',
      p.waitFor replies =
        some (p', r.rc, if r.rc ≤ 0 then none else Registry.ready rs r.revents) ∧
      Represents p' rs := by
  obtain ⟨r, hfind⟩ : ∃ r, replies.find? Reply.final = some r := by
    rw [← Option.isSome_iff_exists, List.find?_isSome]
    exact hends
  have hitems : p.items ≠ [] := by
    intro hnil
    have := h.items.length_eq
    rw [hnil] at this
    exact hne (List.length_eq_zero_iff.mp this.symm)
  have hpoll : p.poll replies = some (p.write r, r.rc) := by
    rw [Poller.poll, if_neg (by simpa using hitems), pollLoop_eq, hfind, Option.map_some]
  refine ⟨r, hfind, p.write r, ?_, shows_report h.items r.revents, h.userDatas⟩
  have hready := ready_items h.items r.revents
  by_cases hrc : r.rc ≤ 0
  · simp [Poller.waitFor, hpoll, hrc]
  · cases hfound : (p.write r).items.findIdx? (fun item => item.revents != 0) with
    | none =>
      rw [show Poller.report p.items r.revents = (p.write r).items from rfl, hfound] at hready
      simp [Poller.waitFor, hpoll, hrc, hfound, hready]
    | some i =>
      rw [show Poller.report p.items r.revents = (p.write r).items from rfl, hfound] at hready
      obtain ⟨item, userData, hitem, hdata, hready⟩ := hready
      have hdata : (p.write r).userDatas[i]? = some userData := by
        rw [← hdata, ← h.userDatas]
        rfl
      simp [Poller.waitFor, hpoll, hrc, hfound, hitem, hdata, hready]

/-! ## Runs -/

section Runs

variable [DecidableEq ι]

/-- Every poller represents its registry. -/
def Agree (w : ι → Poller σ υ) (w' : ι → Registry σ υ) : Prop := ∀ k, Represents (w k) (w' k)

theorem Agree.update {w : ι → Poller σ υ} {w' : ι → Registry σ υ} (h : Agree w w') (k : ι)
    (hk : Represents p rs) : Agree (Function.update w k p) (Function.update w' k rs) := by
  intro j
  by_cases hj : j = k
  · subst hj
    simpa using hk
  · simpa [hj] using h j

theorem represents_new : Represents (.new : Poller σ υ) [] := ⟨.nil, rfl⟩

/-- **One call**: the poller answers as its registry does. -/
theorem step_refines [DecidableEq σ] {w : ι → Poller σ υ} {w' : ι → Registry σ υ} (a : PlainAct ι σ υ)
    (h : Agree w w') :
    ∃ v, step w a = .ok (v, (spec w' a).2) ∧ Agree v (spec w' a).1 := by
  obtain ⟨a, ha⟩ := a
  cases a with
  | add k socketPtr fd events userData =>
    exact ⟨_, rfl, h.update k (represents_add (h k) ha events userData)⟩
  | modify k socketPtr fd events =>
    obtain ⟨hrc, hrep⟩ := represents_modify (h k) ha.2 events
    refine ⟨_, ?_, h.update k hrep⟩
    simp [step, spec, hrc]
  | remove k socketPtr fd =>
    obtain ⟨hrc, hrep⟩ := represents_remove (h k) ha.2
    refine ⟨_, ?_, h.update k hrep⟩
    simp [step, spec, hrc]
  | waitFor k replies =>
    by_cases hnil : w' k = []
    · have hitems : (w k).items = [] := by
        have := (h k).items
        rw [hnil] at this
        exact List.forall₂_nil_right_iff.mp this
      refine ⟨w, ?_, ?_⟩
      · simp [step, spec, hnil, Poller.waitFor, Poller.poll, hitems]
      · simpa [spec, hnil] using h
    · obtain ⟨r, hfind, p', hwait, hrep⟩ := represents_waitFor (h k) ha hnil
      refine ⟨Function.update w k p', ?_, ?_⟩
      · simp [step, spec, hnil, hfind, hwait]
      · have := h.update k hrep
        simpa [spec, hnil, hfind] using this
  | move k other =>
    by_cases hsame : k = other
    · exact ⟨w, by simp [step, spec, hsame], by simpa [spec, hsame] using h⟩
    · refine ⟨_, by simp only [step, spec, if_neg hsame]; rfl, ?_⟩
      simpa [spec, hsame] using (h.update k (h other)).update other represents_new

/-- **Pollers are registries**: any number of pollers, filled, changed,
waited on and moved in any order, answer every call as their registries
do, and no call reads behind an array. -/
theorem pollers_refine [DecidableEq σ] (acts : List (PlainAct ι σ υ)) :
    ∃ w, runAll step (fun _ => .new) acts = .ok (w, (specAll spec (fun _ => []) acts).2) ∧
      Agree w (specAll spec (fun _ => []) acts).1 :=
  runAll_refines (fun _ _ a h => step_refines a h) acts fun _ => represents_new

end Runs

end HighJump.Net.ZmqPoller
