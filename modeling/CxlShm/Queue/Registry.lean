import CxlShm.Lib.Stacks
import CxlShm.Release.Slot

/-!
# The lists of queues

Each slot has a list of the message queues that its client sends on and one of those that it
receives from, and a collection walks along both.  This file is all that changes these lists: a
queue is made and listed by its sender (`create_msg_queue`), listed and claimed by the first client
that finds it without a receiver (`cxl_unwrap`), left by both ends in a collection, by the client or
by the monitor, and cleared when the monitor finds that both are gone.  A step is one access to a
field of a queue or to the head of a list.

The code hands the argument `dst_id` down to `block_to_msg_queue`, which does not store it, and the
monitor reads the two ends of a block one after the other, whatever the block is, and clears it
later.  A block that is no queue contains whatever its last use has left there, and
`create_msg_queue` overwrites that field by field.  If every queue is received from by the slot that
it was made for only, and the monitor is never between its two reads on a block that somebody takes
or registers for, the lists are what a collection takes them for.
-/

namespace CxlShm.Registry

open Function Linked Reachability
open Cascade (MessageQueue)

/-- The fields of a queue but for its buffer. -/
inductive Field
  | start
  | end_
  | senderId
  | receiverId
  | senderNext
  | receiverNext
  deriving DecidableEq, Repr

/-- The store of `v` in a field. -/
def Field.store (v : ℕ) (m : MessageQueue) : Field → MessageQueue
  | .start => { m with start := v }
  | .end_ => { m with end_ := v }
  | .senderId => { m with senderId := v }
  | .receiverId => { m with receiverId := v }
  | .senderNext => { m with senderNext := v }
  | .receiverNext => { m with receiverNext := v }

/-- The fields that `block_to_msg_queue` stores to, in its order. -/
def blockToMsgQueue : List Field :=
  [.senderId, .receiverId, .start, .end_, .senderNext, .receiverNext]

/-- `memset(q, 0, sizeof(cxl_message_queue_t))` -/
def memset : List Field :=
  [.start, .end_, .senderId, .receiverId, .senderNext, .receiverNext]

/-- The next access for a slot, by its client or, in a collection, by the monitor. -/
inductive Pc
  /-- the slot is free -/
  | out
  /-- `tls->sender_queue = 0` in `thread_init` -/
  | resetSender
  /-- `tls->receiver_queue = 0` in `thread_init` -/
  | resetReceiver
  | idle
  /-- the stores of `block_to_msg_queue` that are left -/
  | making (q : Offset) (todo : List Field)
  /-- `q->sender_next = tls->sender_queue` -/
  | linkSender (q : Offset)
  /-- `tls->sender_queue = q` -/
  | publishSender (q : Offset)
  /-- `q->receiver_next = tls->receiver_queue` -/
  | linkReceiver (q : Offset)
  /-- `tls->receiver_queue = offset` -/
  | publishReceiver (q : Offset)
  /-- `q->receiver_id = thread_id` -/
  | claim (q : Offset)
  /-- `next = sender_msg_queue->sender_next`, if there is a queue -/
  | sender (q : Offset)
  /-- `sender_msg_queue->sender_id = 0` -/
  | leaveSender (q next : Offset)
  /-- `next = receiver_msg_queue->receiver_next`, if there is a queue -/
  | receiver (q : Offset)
  /-- `receiver_msg_queue->receiver_id = 0` -/
  | leaveReceiver (q next : Offset)
  /-- `tls->sender_queue = 0` at the end of a collection -/
  | dropSender
  /-- `tls->receiver_queue = 0` at the end of a collection -/
  | dropReceiver
  /-- the compare-exchange that frees the slot -/
  | vacate
  deriving DecidableEq, Repr

/-- Where the monitor is. -/
inductive Monitor
  | idle
  /-- in the collection of slot `t` -/
  | slot (t : ℕ)
  /-- has read 0 in `q->receiver_id`, comes to `q->sender_id` -/
  | sender (q : Offset)
  /-- the stores of the `memset` that are left -/
  | clear (q : Offset) (todo : List Field)
  deriving DecidableEq, Repr

/-- The queues, the lists of each slot and the monitor.  `created q` is that `create_msg_queue` has
listed the queue `q` and the monitor has not found it dead since, and `dstId q` is the slot that the
block was last taken for. -/
structure State where
  queue : Offset → MessageQueue
  senderQueue : ℕ → Offset
  receiverQueue : ℕ → Offset
  pc : ℕ → Pc
  created : Offset → Bool
  dstId : Offset → ℕ
  monitor : Monitor

/-- The area as it is mapped. -/
def State.init : State where
  queue _ := ⟨0, 0, 0, 0, 0, 0⟩
  senderQueue _ := 0
  receiverQueue _ := 0
  pc _ := .out
  created _ := false
  dstId _ := 0
  monitor := .idle

inductive Action
  /-- `thread_init` gets slot `t` -/
  | threadInit (t : ℕ)
  /-- `create_msg_queue(dst_id)` is given the block `q` -/
  | create (t dstId : ℕ) (q : Offset)
  /-- `cxl_unwrap(q)`, which looks at `q->receiver_id` -/
  | unwrap (t : ℕ) (q : Offset)
  /-- `normal_garbage_collection` up to the queues -/
  | exit (t : ℕ)
  /-- `recovery_garbage_collection` up to the queues, for a client that has stopped -/
  | recover (t : ℕ)
  /-- the next access for slot `t` -/
  | run (t : ℕ)
  /-- the loop over the segments comes to a block of a queue page and looks at `q->receiver_id` -/
  | sweep (q : Offset)
  /-- the next access of that loop -/
  | runSweep
  /-- a store to a block that is no queue, in some other use of the memory -/
  | overwrite (q : Offset) (f : Field) (v : ℕ)
  deriving DecidableEq, Repr

namespace State

variable (s : State)

def setPc (t : ℕ) (p : Pc) : State := { s with pc := update s.pc t p }

def setQueue (q : Offset) (m : MessageQueue) : State := { s with queue := update s.queue q m }

/-- `create_msg_queue(dst_id)` is given the block `q`. -/
def create (t dstId : ℕ) (q : Offset) : State :=
  { s with dstId := update s.dstId q dstId }.setPc t (.making q blockToMsgQueue)

/-- The next access for slot `t`. -/
def runPc (t : ℕ) : Pc → Option State
  | .out | .idle => none
  | .resetSender => some ({ s with senderQueue := update s.senderQueue t 0 }.setPc t .resetReceiver)
  | .resetReceiver => some ({ s with receiverQueue := update s.receiverQueue t 0 }.setPc t .idle)
  | .making q [] => some (s.setPc t (.linkSender q))
  | .making q (f :: todo) =>
    some ((s.setQueue q (f.store (if f = .senderId then t % 2 ^ 16 else 0) (s.queue q))).setPc t
      (.making q todo))
  | .linkSender q =>
    some ((s.setQueue q { s.queue q with senderNext := s.senderQueue t }).setPc t
      (.publishSender q))
  | .publishSender q =>
    some ({ s with
      senderQueue := update s.senderQueue t q
      created := update s.created q true }.setPc t .idle)
  | .linkReceiver q =>
    some ((s.setQueue q { s.queue q with receiverNext := s.receiverQueue t }).setPc t
      (.publishReceiver q))
  | .publishReceiver q =>
    some ({ s with receiverQueue := update s.receiverQueue t q }.setPc t (.claim q))
  | .claim q => some ((s.setQueue q { s.queue q with receiverId := t % 2 ^ 16 }).setPc t .idle)
  | .sender q =>
    some (s.setPc t (if q = 0 then .receiver (s.receiverQueue t)
      else .leaveSender q (s.queue q).senderNext))
  | .leaveSender q next =>
    some ((s.setQueue q { s.queue q with senderId := 0 }).setPc t (.sender next))
  | .receiver q =>
    some (s.setPc t (if q = 0 then .dropSender else .leaveReceiver q (s.queue q).receiverNext))
  | .leaveReceiver q next =>
    some ((s.setQueue q { s.queue q with receiverId := 0 }).setPc t (.receiver next))
  | .dropSender => some ({ s with senderQueue := update s.senderQueue t 0 }.setPc t .dropReceiver)
  | .dropReceiver => some ({ s with receiverQueue := update s.receiverQueue t 0 }.setPc t .vacate)
  | .vacate =>
    some ({ s with
      monitor := if s.monitor = Monitor.slot t then .idle else s.monitor }.setPc t .out)

/-- The next access of the monitor to the block that it looks at. -/
def runSweep : Monitor → Option State
  | .idle | .slot _ => none
  | .sender q =>
    if (s.queue q).senderId = 0 then
      some { s with monitor := .clear q memset, created := update s.created q false }
    else some { s with monitor := .idle }
  | .clear _ [] => some { s with monitor := .idle }
  | .clear q (f :: todo) =>
    some ({ s with monitor := .clear q todo }.setQueue q (f.store 0 (s.queue q)))

end State

/-- The step function.  The monitor goes through the slots one at a time, and looks at the segments
when it is done with them. -/
def step (s : State) : Action → Option State
  | .threadInit t => if s.pc t = .out ∧ 1 ≤ t then some (s.setPc t .resetSender) else none
  | .create t dstId q => if s.pc t = .idle then some (s.create t dstId q) else none
  | .unwrap t q =>
    if s.pc t = .idle then
      some (s.setPc t (if (s.queue q).receiverId = 0 then .linkReceiver q else .idle))
    else none
  | .exit t => if s.pc t = .idle then some (s.setPc t (.sender (s.senderQueue t))) else none
  | .recover t =>
    if s.monitor = .idle ∧ s.pc t ≠ .out then
      some ({ s with monitor := .slot t }.setPc t (.sender (s.senderQueue t)))
    else none
  | .run t => s.runPc t (s.pc t)
  | .sweep q =>
    if s.monitor = .idle then
      some (if (s.queue q).receiverId = 0 then { s with monitor := .sender q } else s)
    else none
  | .runSweep => s.runSweep s.monitor
  | .overwrite q f v => some (s.setQueue q (f.store v (s.queue q)))

/-- The slot is in a collection. -/
def Pc.collects : Pc → Bool
  | .sender _ | .leaveSender .. | .receiver _ | .leaveReceiver .. => true
  | .dropSender | .dropReceiver | .vacate => true
  | _ => false

/-- The block that the client is making a queue of, until the queue is on its list. -/
def Pc.creates : Pc → Option Offset
  | .making q _ | .linkSender q | .publishSender q => some q
  | _ => none

/-- The queue that the client is listing and claiming as its receiver. -/
def Pc.registers : Pc → Option Offset
  | .linkReceiver q | .publishReceiver q | .claim q => some q
  | _ => none

/-- The block that the monitor has found without a receiver and is not done with. -/
def Monitor.looksAt : Monitor → Option Offset
  | .sender q | .clear q _ => some q
  | _ => none

/-- Nobody takes or registers for the block that the monitor looks at. -/
def Apart (s : State) : Prop :=
  ∀ q, s.monitor.looksAt = some q → ∀ t, (s.pc t).creates ≠ some q ∧ (s.pc t).registers ≠ some q

/-- The block is no queue, and nobody makes one of it. -/
def Unused (s : State) (q : Offset) : Prop :=
  s.created q = false ∧ ∀ t, (s.pc t).creates ≠ some q

/-- Ids have a row; a block that is handed out, or stored to in another use of it, is no queue; a
queue is received from by the slot that it was made for, once it is listed and before it is found
dead; a client does not stop in its own collection; and the monitor looks at no block that somebody
takes or registers for. -/
def Careful (s : State) (a : Action) (s' : State) : Prop :=
  Apart s' ∧
    match a with
    | .threadInit t => t ≤ maxThread
    | .create _ _ q => q ≠ 0 ∧ Unused s q
    | .overwrite q _ _ => Unused s q
    | .unwrap t q => s.created q = true ∧ s.dstId q = t
    | .recover t => (s.pc t).collects = false
    | _ => True

variable {s s' : State} {t u : ℕ} {q x : Offset} {p : Pc} {m : MessageQueue} {f : Field} {v : ℕ}

@[simp]
theorem senderId_store : (f.store v m).senderId = if f = .senderId then v else m.senderId := by
  cases f <;> simp [Field.store]

@[simp]
theorem receiverId_store :
    (f.store v m).receiverId = if f = .receiverId then v else m.receiverId := by
  cases f <;> simp [Field.store]

/-! ## The invariant -/

/-- The queues that are still on the slot's list of senders begin here. -/
def State.senderHead (s : State) (t : ℕ) : Offset :=
  match s.pc t with
  | .sender q | .leaveSender q _ => q
  | .receiver _ | .leaveReceiver .. | .dropSender | .dropReceiver | .vacate => 0
  | _ => s.senderQueue t

/-- The queues that are still on the slot's list of receivers begin here. -/
def State.receiverHead (s : State) (t : ℕ) : Offset :=
  match s.pc t with
  | .receiver q | .leaveReceiver q _ => q
  | .dropSender | .dropReceiver | .vacate => 0
  | _ => s.receiverQueue t

/-- `tls->sender_queue` is 0. -/
def Pc.senderEmpty : Pc → Bool
  | .out | .resetSender | .resetReceiver | .dropReceiver | .vacate => true
  | _ => false

/-- `tls->receiver_queue` is 0. -/
def Pc.receiverEmpty : Pc → Bool
  | .out | .resetSender | .resetReceiver | .vacate => true
  | _ => false

/-- The slots that are in use, and the monitor. -/
structure Slots (s : State) : Prop where
  range : ∀ t, s.pc t ≠ .out → 1 ≤ t ∧ t ≤ maxThread
  noSender : ∀ t, (s.pc t).senderEmpty = true → s.senderQueue t = 0
  noReceiver : ∀ t, (s.pc t).receiverEmpty = true → s.receiverQueue t = 0
  monitor : ∀ t, s.monitor = .slot t → (s.pc t).collects = true
  apart : Apart s
  dead : ∀ q todo, s.monitor = .clear q todo → s.created q = false

/-- What the lists of senders say of the block `q`. -/
structure SenderBlock (place : Offset → Option ℕ) (s : State) (q : Offset) : Prop where
  block : s.created q = true → q ≠ 0
  placed : ∀ t, place q = some t → s.created q = true ∧ (s.queue q).senderId = t ∧ t ≠ 0
  named : s.created q = true → (s.queue q).senderId ≠ 0 → place q = some (s.queue q).senderId

/-- What they say of the slot `t`. -/
structure SenderSlot (s : State) (t : ℕ) : Prop where
  creating : ∀ q, (s.pc t).creates = some q → q ≠ 0 ∧ s.created q = false ∧
    ((s.queue q).senderId = t ∨ s.pc t = .making q blockToMsgQueue)
  order : ∀ q todo, s.pc t = .making q todo → todo = blockToMsgQueue ∨ .senderId ∉ todo
  linked : ∀ q, s.pc t = .publishSender q → (s.queue q).senderNext = s.senderQueue t
  leaving : ∀ q next, s.pc t = .leaveSender q next → q ≠ 0 ∧ next = (s.queue q).senderNext

/-- The lists of senders. -/
structure Senders (place : Offset → Option ℕ) (s : State) : Prop where
  rows : Stacks (fun q => (s.queue q).senderNext) 0 s.senderHead place
  block : ∀ q, SenderBlock place s q
  slot : ∀ t, SenderSlot s t
  unique : ∀ t u q, (s.pc t).creates = some q → (s.pc u).creates = some q → t = u

/-- What the lists of receivers say of the block `q`. -/
structure ReceiverBlock (place : Offset → Option ℕ) (s : State) (q : Offset) : Prop where
  placed : ∀ t, place q = some t → s.created q = true ∧ s.dstId q = t ∧ t ≠ 0 ∧
    ((s.queue q).receiverId = t ∨
      (s.queue q).receiverId = 0 ∧ (s.pc t = .claim q ∨ s.monitor = .slot t))
  claimed : s.created q = true → (s.queue q).receiverId ≠ 0 →
    place q = some (s.queue q).receiverId
  looked : s.created q = true → s.monitor = .sender q → (s.queue q).receiverId = 0

/-- What they say of the slot `t`. -/
structure ReceiverSlot (place : Offset → Option ℕ) (s : State) (t : ℕ) : Prop where
  creating : ∀ q, (s.pc t).creates = some q → s.created q = false ∧
    ((s.queue q).receiverId = 0 ∨ ∃ todo, s.pc t = .making q todo ∧ .receiverId ∈ todo)
  registering : ∀ q, (s.pc t).registers = some q →
    q ≠ 0 ∧ s.created q = true ∧ s.dstId q = t ∧ (s.queue q).receiverId = 0 ∧
      place q = if s.pc t = .claim q then some t else none
  linked : ∀ q, s.pc t = .publishReceiver q → (s.queue q).receiverNext = s.receiverQueue t
  leaving : ∀ q next, s.pc t = .leaveReceiver q next → q ≠ 0 ∧ next = (s.queue q).receiverNext

/-- The lists of receivers. -/
structure Receivers (place : Offset → Option ℕ) (s : State) : Prop where
  rows : Stacks (fun q => (s.queue q).receiverNext) 0 s.receiverHead place
  block : ∀ q, ReceiverBlock place s q
  slot : ∀ t, ReceiverSlot place s t

variable {place place' : Offset → Option ℕ}

theorem senderHead_congr (pc : s'.pc u = s.pc u) (queue : s'.senderQueue u = s.senderQueue u) :
    s'.senderHead u = s.senderHead u := by
  simp only [State.senderHead, pc, queue]

theorem receiverHead_congr (pc : s'.pc u = s.pc u)
    (queue : s'.receiverQueue u = s.receiverQueue u) :
    s'.receiverHead u = s.receiverHead u := by
  simp only [State.receiverHead, pc, queue]

/-- Only the slot that takes the step gets another head. -/
theorem senderHead_of_pc {x : Offset} (pc : s'.pc = update s.pc t p)
    (others : ∀ u ≠ t, s'.senderQueue u = s.senderQueue u) (head : s'.senderHead t = x) :
    s'.senderHead = update s.senderHead t x := by
  funext u
  by_cases mine : u = t
  · subst mine
    rw [update_self, head]
  · rw [update_of_ne mine]
    exact senderHead_congr (by rw [pc, update_of_ne mine]) (others u mine)

theorem senderHead_of_quiet (pc : s'.pc = update s.pc t p)
    (others : ∀ u ≠ t, s'.senderQueue u = s.senderQueue u)
    (head : s'.senderHead t = s.senderHead t) :
    s'.senderHead = s.senderHead := by
  rw [senderHead_of_pc pc others head, update_eq_self]

theorem receiverHead_of_pc {x : Offset} (pc : s'.pc = update s.pc t p)
    (others : ∀ u ≠ t, s'.receiverQueue u = s.receiverQueue u) (head : s'.receiverHead t = x) :
    s'.receiverHead = update s.receiverHead t x := by
  funext u
  by_cases mine : u = t
  · subst mine
    rw [update_self, head]
  · rw [update_of_ne mine]
    exact receiverHead_congr (by rw [pc, update_of_ne mine]) (others u mine)

theorem receiverHead_of_quiet (pc : s'.pc = update s.pc t p)
    (others : ∀ u ≠ t, s'.receiverQueue u = s.receiverQueue u)
    (head : s'.receiverHead t = s.receiverHead t) :
    s'.receiverHead = s.receiverHead := by
  rw [receiverHead_of_pc pc others head, update_eq_self]

theorem senderNext_update (f : Offset → MessageQueue) (q : Offset) (m : MessageQueue) :
    (fun x => (update f q m x).senderNext) = update (fun x => (f x).senderNext) q m.senderNext :=
  funext fun x => apply_update (fun _ m => m.senderNext) f q m x

theorem receiverNext_update (f : Offset → MessageQueue) (q : Offset) (m : MessageQueue) :
    (fun x => (update f q m x).receiverNext) =
      update (fun x => (f x).receiverNext) q m.receiverNext :=
  funext fun x => apply_update (fun _ m => m.receiverNext) f q m x

/-- There is no slot 0. -/
theorem Slots.zero (h : Slots s) : s.pc 0 = .out := by
  by_contra some
  exact absurd (h.range 0 some).1 (by decide)

/-! ## The senders -/

section Senders

/-- A queue that is left is still the first one of its list. -/
theorem Senders.leaving (h : Senders place s) {next : Offset}
    (here : s.pc t = .leaveSender q next) :
    q ≠ 0 ∧ next = (s.queue q).senderNext ∧ s.senderHead t = q ∧ place q = some t := by
  obtain ⟨some, linked⟩ := (h.slot t).leaving q next here
  have first : s.senderHead t = q := by
    simp only [State.senderHead, here]
  have listed := h.rows.place_head (q := t) (by rwa [first])
  exact ⟨some, linked, first, first ▸ listed⟩

/-- A block that is no queue is on no list. -/
theorem Senders.place_new (h : Senders place s) (new : s.created q = false) : place q = none := by
  refine Option.eq_none_iff_forall_ne_some.2 fun u listed => ?_
  cases new.symm.trans ((h.block q).placed u listed).1

/-- Nobody lists a queue that has no sender. -/
theorem Senders.place_gone (h : Senders place s) (gone : (s.queue q).senderId = 0) :
    place q = none := by
  refine Option.eq_none_iff_forall_ne_some.2 fun u listed => ?_
  obtain ⟨-, id, used⟩ := (h.block q).placed u listed
  exact used (id.symm.trans gone)

/-- A slot makes one queue at a time, and no other slot makes it. -/
theorem Senders.only (h : Senders place s) (here : (s.pc t).creates = some q) :
    ∀ u x, (s.pc u).creates = some x → (u = t ↔ x = q) := by
  refine fun u x making => ⟨fun mine => ?_, fun same => ?_⟩
  · subst mine
    exact Option.some.inj (making.symm.trans here)
  · subst same
    exact h.unique u t x making here

/-- The lists say nothing of a block that is no queue. -/
theorem SenderBlock.of_new (new : s.created q = false) (free : place q = none) :
    SenderBlock place s q := by
  refine ⟨fun made => ?_, fun u listed => ?_, fun made => ?_⟩
  · cases new.symm.trans made
  · cases free.symm.trans listed
  · cases new.symm.trans made

/-- A step of slot `t` after which it does not make a queue. -/
theorem Senders.frame (h : Senders place s) (pc : s'.pc = update s.pc t p)
    (created : s'.created = s.created)
    (queue : ∀ q, (s'.queue q).senderNext = (s.queue q).senderNext ∧
      (s'.queue q).senderId = (s.queue q).senderId)
    (head : s'.senderHead t = s.senderHead t) (others : ∀ u ≠ t, s'.senderQueue u = s.senderQueue u)
    (quiet : p.creates = none)
    (leaving : ∀ q next, p = .leaveSender q next → q ≠ 0 ∧ next = (s.queue q).senderNext) :
    Senders place s' := by
  have pc_ne {u : ℕ} (other : u ≠ t) : s'.pc u = s.pc u := by
    rw [pc, update_of_ne other]
  have pc_self : s'.pc t = p := by
    rw [pc, update_self]
  have creates {u : ℕ} {q : Offset} (hq : (s'.pc u).creates = some q) :
      u ≠ t ∧ (s.pc u).creates = some q := by
    have other : u ≠ t := by
      rintro rfl
      rw [pc_self, quiet] at hq
      cases hq
    exact ⟨other, pc_ne other ▸ hq⟩
  refine ⟨?_, fun q => ?_, fun u => ?_,
    fun u v q hu hv => h.unique u v q (creates hu).2 (creates hv).2⟩
  · rw [senderHead_of_quiet pc others head,
      show (fun q => (s'.queue q).senderNext) = _ from funext fun q => (queue q).1]
    exact h.rows
  · obtain ⟨block, placed, named⟩ := h.block q
    rw [← created] at block
    rw [← created, ← (queue q).2] at placed named
    exact ⟨block, placed, named⟩
  · by_cases mine : u = t
    · subst mine
      refine ⟨fun q hq => absurd rfl (creates hq).1, fun q todo hq => ?_, fun q hq => ?_,
        fun q next hq => ?_⟩
      · rw [← pc_self, hq] at quiet
        cases quiet
      · rw [← pc_self, hq] at quiet
        cases quiet
      · rw [(queue q).1]
        exact leaving q next (pc_self.symm.trans hq)
    · obtain ⟨creating, order, linked, left⟩ := h.slot u
      rw [← pc_ne mine] at creating order linked left
      refine ⟨fun q hq => ?_, order, fun q hq => ?_, fun q next hq => ?_⟩
      · rw [created, (queue q).2]
        exact creating q hq
      · rw [(queue q).1, others u mine]
        exact linked q hq
      · rw [(queue q).1]
        exact left q next hq

/-- A step of slot `t` that concerns the block `x`. -/
theorem Senders.change (h : Senders place s) (pc : s'.pc = update s.pc t p)
    (rows : Stacks (fun q => (s'.queue q).senderNext) 0 s'.senderHead place')
    (same : ∀ q ≠ x, s'.created q = s.created q ∧ (s'.queue q).senderId = (s.queue q).senderId ∧
      (s'.queue q).senderNext = (s.queue q).senderNext ∧ place' q = place q)
    (others : ∀ u ≠ t, s'.senderQueue u = s.senderQueue u ∧ (s.pc u).creates ≠ some x ∧
      place x ≠ some u)
    (before : ∀ q, (s.pc t).creates = some q → q = x) (after : ∀ q, p.creates = some q → q = x)
    (block : SenderBlock place' s' x) (slot : SenderSlot s' t) : Senders place' s' := by
  have pc_ne {u : ℕ} (other : u ≠ t) : s'.pc u = s.pc u := by
    rw [pc, update_of_ne other]
  have pc_self : s'.pc t = p := by
    rw [pc, update_self]
  have creates {u : ℕ} {q : Offset} (different : q ≠ x) :
      (s'.pc u).creates = some q ↔ (s.pc u).creates = some q := by
    by_cases mine : u = t
    · subst mine
      rw [pc_self]
      exact ⟨fun hq => absurd (after q hq) different, fun hq => absurd (before q hq) different⟩
    · rw [pc_ne mine]
  have own {u : ℕ} (hq : (s'.pc u).creates = some x) : u = t := by
    by_contra mine
    exact (others u mine).2.1 (pc_ne mine ▸ hq)
  refine ⟨rows, fun q => ?_, fun u => ?_, fun u v q hu hv => ?_⟩
  · by_cases different : q = x
    · exact different ▸ block
    obtain ⟨block, placed, named⟩ := h.block q
    obtain ⟨created, id, -, on_list⟩ := same q different
    rw [← created] at block
    rw [← created, ← id, ← on_list] at placed named
    exact ⟨block, placed, named⟩
  · by_cases mine : u = t
    · exact mine ▸ slot
    obtain ⟨creating, order, linked, left⟩ := h.slot u
    have off {q : Offset} (hq : (s.pc u).creates = some q) : q ≠ x := by
      rintro rfl
      exact (others u mine).2.1 hq
    rw [← pc_ne mine] at off creating order linked left
    refine ⟨fun q hq => ?_, order, fun q hq => ?_, fun q next hq => ?_⟩
    · obtain ⟨created, id, -⟩ := same q (off hq)
      rw [created, id]
      exact creating q hq
    · rw [(same q (off (by rw [hq]; rfl))).2.2.1, (others u mine).1]
      exact linked q hq
    · have listed := (h.leaving (pc_ne mine ▸ hq)).2.2.2
      rw [(same q fun here => (others u mine).2.2 (here ▸ listed)).2.2.1]
      exact left q next hq
  · by_cases different : q = x
    · subst different
      exact (own hu).trans (own hv).symm
    · exact h.unique u v q ((creates different).1 hu) ((creates different).1 hv)

/-- A step of slot `t` while it makes the queue `q`. -/
theorem Senders.making (h : Senders place s) (pc : s'.pc = update s.pc t p)
    (senderQueue : s'.senderQueue = s.senderQueue) (created : s'.created = s.created)
    (same : ∀ x ≠ q, s'.queue x = s.queue x)
    (only : ∀ u x, (s.pc u).creates = some x → (u = t ↔ x = q)) (after : p.creates = some q)
    (block : q ≠ 0 ∧ s.created q = false ∧
      ((s'.queue q).senderId = t ∨ p = .making q blockToMsgQueue))
    (order : ∀ todo, p = .making q todo → todo = blockToMsgQueue ∨ .senderId ∉ todo)
    (linked : p = .publishSender q → (s'.queue q).senderNext = s.senderQueue t)
    (head : s.senderHead t = s.senderQueue t) : Senders place s' := by
  have pc_self : s'.pc t = p := by
    rw [pc, update_self]
  have free := h.place_new block.2.1
  have own {x : Offset} (hx : p.creates = some x) : x = q := Option.some.inj (hx.symm.trans after)
  refine h.change (x := q) pc ?_ (fun x different => ?_)
    (fun u mine => ⟨?_, fun making => mine ((only u q making).2 rfl), ?_⟩)
    (fun x making => (only t x making).1 rfl) (fun x hx => own hx)
    (.of_new (created ▸ block.2.1) free)
    ⟨fun x hx => ?_, fun x todo hx => ?_, fun x hx => ?_, fun x next hx => ?_⟩
  · have heads : s'.senderHead = s.senderHead := by
      refine senderHead_of_quiet pc (fun u _ => by rw [senderQueue]) ?_
      rw [head, ← senderQueue]
      cases p <;> simp_all [State.senderHead, Pc.creates]
    rw [heads]
    refine h.rows.congr fun x u listed => ?_
    rw [same x ?_]
    rintro rfl
    rw [free] at listed
    cases listed
  · rw [created, same x different]
    exact ⟨rfl, rfl, rfl, rfl⟩
  · rw [senderQueue]
  · rw [free]
    nofun
  · rw [pc_self] at hx ⊢
    rw [own hx, created]
    exact block
  · rw [pc_self] at hx
    obtain rfl := own (show p.creates = some x by rw [hx]; rfl)
    exact order todo hx
  · rw [pc_self] at hx
    obtain rfl := own (show p.creates = some x by rw [hx]; rfl)
    rw [senderQueue]
    exact linked hx
  · rw [pc_self] at hx
    rw [hx] at after
    cases after

/-- A store to a block that is no queue, or no queue any more. -/
theorem Senders.write (h : Senders place s) (slots : Slots s) (pc : s'.pc = s.pc)
    (senderQueue : s'.senderQueue = s.senderQueue)
    (same : ∀ q ≠ x, s'.created q = s.created q ∧ s'.queue q = s.queue q)
    (free : place x = none) (new : s'.created x = false)
    (apart : ∀ t, (s.pc t).creates ≠ some x) : Senders place s' := by
  have heads : s'.senderHead = s.senderHead :=
    funext fun u => senderHead_congr (congrFun pc u) (congrFun senderQueue u)
  have unused : s'.pc = update s.pc 0 .out := by
    rw [pc, ← slots.zero, update_eq_self]
  have zero : s'.pc 0 = .out := by
    rw [unused, update_self]
  refine h.change (x := x) unused ?_ (fun q different => ?_) (fun u _ => ⟨?_, apart u, ?_⟩)
    (fun q hq => ?_) nofun (.of_new new free) ?_
  · rw [heads]
    refine h.rows.congr fun q u listed => ?_
    rw [(same q ?_).2]
    rintro rfl
    rw [free] at listed
    cases listed
  · obtain ⟨created, queue⟩ := same q different
    rw [created, queue]
    exact ⟨rfl, rfl, rfl, rfl⟩
  · rw [senderQueue]
  · rw [free]
    nofun
  · rw [slots.zero] at hq
    cases hq
  · constructor <;> rw [zero] <;> nofun

theorem Senders.create {dst : ℕ} (h : Senders place s) (idle : s.pc t = .idle) (some : q ≠ 0)
    (unused : Unused s q) : Senders place (s.create t dst q) := by
  refine h.making (q := q) rfl rfl rfl (fun x _ => rfl) (fun u x making => ⟨fun mine => ?_, ?_⟩) rfl
    ⟨some, unused.1, .inr rfl⟩ ?_ nofun ?_
  · rw [mine, idle] at making
    cases making
  · rintro rfl
    exact absurd making (unused.2 u)
  · rintro _ ⟨⟩
    exact .inl rfl
  · simp only [State.senderHead, idle]

/-- `block_to_msg_queue` stores to the next field. -/
theorem Senders.store {todo : List Field} (h : Senders place s) (slots : Slots s)
    (here : s.pc t = .making q (f :: todo)) :
    Senders place ((s.setQueue q (f.store (if f = .senderId then t % 2 ^ 16 else 0)
      (s.queue q))).setPc t (.making q todo)) := by
  obtain ⟨from_one, few⟩ := slots.range t (by rw [here]; rintro ⟨⟩)
  have id : t % 2 ^ 16 = t := Nat.mod_eq_of_lt (by rw [maxThread] at few; omega)
  have creates : (s.pc t).creates = some q := by
    rw [here]
    rfl
  obtain ⟨some, new, named⟩ := (h.slot t).creating q creates
  have first : f = .senderId ∧ .senderId ∉ todo ∨ f ≠ .senderId ∧ .senderId ∉ todo := by
    rcases (h.slot t).order q _ here with all | later
    · obtain ⟨rfl, rfl⟩ := List.cons.inj all
      exact .inl ⟨rfl, by decide⟩
    · rw [List.mem_cons, not_or] at later
      exact .inr ⟨Ne.symm later.1, later.2⟩
  refine h.making (q := q) rfl rfl rfl (fun x different => update_of_ne different _ _)
    (h.only creates) rfl ⟨some, new, .inl ?_⟩ ?_ (by rintro ⟨⟩) ?_
  · simp only [State.setPc, State.setQueue, update_self, senderId_store, id]
    rcases first with ⟨rfl, -⟩ | ⟨other, -⟩
    · rfl
    · rw [if_neg other]
      rcases named with mine | all
      · exact mine
      · obtain ⟨rfl, -⟩ := List.cons.inj (Pc.making.inj (here.symm.trans all)).2
        exact absurd rfl other
  · rintro _ ⟨⟩
    exact .inr (first.elim And.right And.right)
  · simp only [State.senderHead, here]

/-- `block_to_msg_queue` returns. -/
theorem Senders.made (h : Senders place s) (here : s.pc t = .making q []) :
    Senders place (s.setPc t (.linkSender q)) := by
  have creates : (s.pc t).creates = some q := by
    rw [here]
    rfl
  obtain ⟨some, new, mine | all⟩ := (h.slot t).creating q creates
  · refine h.making (q := q) rfl rfl rfl (fun x _ => rfl) (h.only creates) rfl
      ⟨some, new, .inl mine⟩ nofun nofun ?_
    simp only [State.senderHead, here]
  · cases (Pc.making.inj (here.symm.trans all)).2

theorem Senders.linkSender (h : Senders place s) (here : s.pc t = .linkSender q) :
    Senders place ((s.setQueue q { s.queue q with senderNext := s.senderQueue t }).setPc t
      (.publishSender q)) := by
  have creates : (s.pc t).creates = some q := by
    rw [here]
    rfl
  obtain ⟨some, new, mine | all⟩ := (h.slot t).creating q creates
  · refine h.making (q := q) rfl rfl rfl (fun x different => update_of_ne different _ _)
      (h.only creates) rfl ⟨some, new, .inl ?_⟩ nofun (fun _ => ?_) ?_
    · simpa [State.setPc, State.setQueue] using mine
    · simp [State.setPc, State.setQueue]
    · simp only [State.senderHead, here]
  · cases here.symm.trans all

theorem Senders.publishSender (h : Senders place s) (slots : Slots s)
    (here : s.pc t = .publishSender q) :
    Senders (update place q (some t))
      ({ s with
        senderQueue := update s.senderQueue t q
        created := update s.created q true }.setPc t .idle) := by
  obtain ⟨from_one, -⟩ := slots.range t (by rw [here]; nofun)
  have creates : (s.pc t).creates = some q := by
    rw [here]
    rfl
  obtain ⟨nonzero, new, mine | all⟩ := (h.slot t).creating q creates
  · have free := h.place_new new
    have head : s.senderHead t = s.senderQueue t := by
      simp only [State.senderHead, here]
    have heads : State.senderHead
        ({ s with
          senderQueue := update s.senderQueue t q
          created := update s.created q true }.setPc t .idle) =
        update s.senderHead t q := senderHead_of_pc rfl (fun _ mine => update_of_ne mine _ _) (by
      simp [State.senderHead, State.setPc])
    have listed : update place q (some t) q = some t := update_self _ _ _
    refine h.change (x := q) rfl ?_ (fun x different =>
        ⟨update_of_ne different _ _, rfl, rfl, update_of_ne different _ _⟩)
      (fun u other => ⟨update_of_ne other _ _,
        fun making => other ((h.only creates u q making).2 rfl), ?_⟩)
      (fun x making => (h.only creates t x making).1 rfl) nofun
      ⟨fun _ => nonzero, fun u hu => ?_, fun _ _ => listed.trans (congrArg some mine.symm)⟩ ?_
    · rw [heads]
      exact h.rows.link nonzero free (((h.slot t).linked q here).trans head.symm)
    · rw [free]
      nofun
    · obtain rfl := Option.some.inj (listed.symm.trans hu)
      exact ⟨update_self _ _ _, mine, by omega⟩
    · constructor <;> simp [State.setPc, Pc.creates]
  · cases here.symm.trans all

theorem Senders.leaveSender {next : Offset} (h : Senders place s)
    (here : s.pc t = .leaveSender q next) :
    Senders (update place q none)
      ((s.setQueue q { s.queue q with senderId := 0 }).setPc t (.sender next)) := by
  obtain ⟨nonzero, next_eq, first, listed⟩ := h.leaving here
  obtain ⟨made, -⟩ := (h.block q).placed t listed
  have popped := h.rows.pop (q := t) (by rwa [first])
  rw [first, ← next_eq] at popped
  have heads : State.senderHead ((s.setQueue q { s.queue q with senderId := 0 }).setPc t
      (.sender next)) = update s.senderHead t next := senderHead_of_pc rfl (fun _ _ => rfl) (by
    simp [State.senderHead, State.setPc])
  have links : (fun x => (update s.queue q { s.queue q with senderId := 0 } x).senderNext) =
      fun x => (s.queue x).senderNext := by
    rw [senderNext_update]
    exact update_eq_self q _
  refine h.change (x := q) rfl ?_ (fun x different => ?_)
    (fun u other => ⟨rfl, fun making => ?_, ?_⟩) (fun x hx => ?_) nofun
    ⟨fun _ => nonzero, fun u listed => ?_, fun _ some => ?_⟩ ?_
  · rw [heads]
    exact links.symm ▸ popped
  · simp [State.setPc, State.setQueue, different]
  · cases made.symm.trans ((h.slot u).creating q making).2.1
  · rw [listed]
    exact fun same => other (Option.some.inj same).symm
  · rw [here] at hx
    cases hx
  · rw [update_self] at listed
    cases listed
  · simp [State.setPc, State.setQueue] at some
  · constructor <;> simp [State.setPc, Pc.creates]

end Senders

/-! ## The receivers -/

section Receivers

theorem Receivers.leaving (h : Receivers place s) {next : Offset}
    (here : s.pc t = .leaveReceiver q next) :
    q ≠ 0 ∧ next = (s.queue q).receiverNext ∧ s.receiverHead t = q ∧ place q = some t := by
  obtain ⟨some, linked⟩ := (h.slot t).leaving q next here
  have first : s.receiverHead t = q := by
    simp only [State.receiverHead, here]
  have listed := h.rows.place_head (q := t) (by rwa [first])
  exact ⟨some, linked, first, first ▸ listed⟩

/-- A block that is no queue is on no list. -/
theorem Receivers.place_new (h : Receivers place s) (new : s.created q = false) :
    place q = none := by
  refine Option.eq_none_iff_forall_ne_some.2 fun u listed => ?_
  cases new.symm.trans ((h.block q).placed u listed).1

/-- A block that the monitor has found without a receiver, with nobody at it, is on no list. -/
theorem Receivers.place_looked (h : Receivers place s) (looks : s.monitor = .sender q)
    (apart : ∀ t, (s.pc t).registers ≠ some q) : place q = none := by
  refine Option.eq_none_iff_forall_ne_some.2 fun u listed => ?_
  obtain ⟨made, -, used, id | ⟨-, claiming | dead⟩⟩ := (h.block q).placed u listed
  · exact used (id.symm.trans ((h.block q).looked made looks))
  · exact apart u (by rw [claiming]; rfl)
  · cases looks.symm.trans dead

/-- Nobody makes a queue of a block that is one. -/
theorem Receivers.creates_ne (h : Receivers place s) (made : s.created q = true) :
    ∀ u, (s.pc u).creates ≠ some q := by
  intro u making
  cases made.symm.trans ((h.slot u).creating q making).1

/-- Nobody registers for a block that is no queue. -/
theorem Receivers.registers_ne (h : Receivers place s) (new : s.created q = false) :
    ∀ u, (s.pc u).registers ≠ some q := by
  intro u registering
  cases new.symm.trans ((h.slot u).registering q registering).2.1

/-- The lists say nothing of a block that is no queue. -/
theorem ReceiverBlock.of_new (new : s.created q = false) (free : place q = none) :
    ReceiverBlock place s q := by
  refine ⟨fun u listed => ?_, fun made => ?_, fun made => ?_⟩
  · cases free.symm.trans listed
  · cases new.symm.trans made
  · cases new.symm.trans made

/-- A step of slot `t` after which it neither makes a queue nor registers for one. -/
theorem Receivers.frame (h : Receivers place s) (pc : s'.pc = update s.pc t p)
    (created : s'.created = s.created) (dstId : s'.dstId = s.dstId)
    (queue : ∀ q, (s'.queue q).receiverNext = (s.queue q).receiverNext ∧
      (s'.queue q).receiverId = (s.queue q).receiverId)
    (head : s'.receiverHead t = s.receiverHead t)
    (others : ∀ u ≠ t, s'.receiverQueue u = s.receiverQueue u)
    (quiet : p.creates = none ∧ p.registers = none)
    (leaving : ∀ q next, p = .leaveReceiver q next → q ≠ 0 ∧ next = (s.queue q).receiverNext)
    (before : ∀ q, s.pc t = .claim q → s'.monitor = .slot t)
    (monitor : ∀ u, s.monitor = .slot u → s'.monitor = .slot u ∨ s.receiverHead u = 0)
    (looked : ∀ q, s'.monitor = .sender q → s.monitor = .sender q) : Receivers place s' := by
  have pc_ne {u : ℕ} (other : u ≠ t) : s'.pc u = s.pc u := by
    rw [pc, update_of_ne other]
  have pc_self : s'.pc t = p := by
    rw [pc, update_self]
  have creates {u : ℕ} {q : Offset} (hq : (s'.pc u).creates = some q) :
      u ≠ t ∧ (s.pc u).creates = some q := by
    have other : u ≠ t := by
      rintro rfl
      rw [pc_self, quiet.1] at hq
      cases hq
    exact ⟨other, pc_ne other ▸ hq⟩
  have registers {u : ℕ} {q : Offset} (hq : (s'.pc u).registers = some q) :
      u ≠ t ∧ (s.pc u).registers = some q := by
    have other : u ≠ t := by
      rintro rfl
      rw [pc_self, quiet.2] at hq
      cases hq
    exact ⟨other, pc_ne other ▸ hq⟩
  refine ⟨?_, fun q => ?_, fun u => ?_⟩
  · rw [receiverHead_of_quiet pc others head,
      show (fun q => (s'.queue q).receiverNext) = _ from funext fun q => (queue q).1]
    exact h.rows
  · obtain ⟨placed, claimed, unclaimed⟩ := h.block q
    rw [← created, ← (queue q).2] at placed claimed unclaimed
    refine ⟨fun u listed => ?_, claimed, fun made looks => unclaimed made (looked q looks)⟩
    obtain ⟨made, dst, used, id⟩ := placed u listed
    rw [dstId]
    refine ⟨made, dst, used, id.imp_right fun zero => ⟨zero.1, ?_⟩⟩
    rcases zero.2 with claiming | dead
    · by_cases mine : u = t
      · subst mine
        exact .inr (before q claiming)
      · exact .inl ((pc_ne mine).trans claiming)
    · refine .inr ((monitor u dead).resolve_right fun empty => ?_)
      exact h.rows.head_eq_null.1 empty q listed
  · by_cases mine : u = t
    · subst mine
      refine ⟨fun q hq => absurd rfl (creates hq).1, fun q hq => absurd rfl (registers hq).1,
        fun q hq => ?_, fun q next hq => ?_⟩
      · exact absurd rfl (registers (show (s'.pc u).registers = some q by rw [hq]; rfl)).1
      · rw [(queue q).1]
        exact leaving q next (pc_self.symm.trans hq)
    · obtain ⟨creating, registering, linked, left⟩ := h.slot u
      rw [← pc_ne mine, ← created] at creating registering
      rw [← pc_ne mine] at linked left
      refine ⟨fun q hq => ?_, fun q hq => ?_, fun q hq => ?_, fun q next hq => ?_⟩
      · rw [(queue q).2]
        exact creating q hq
      · rw [dstId, (queue q).2]
        exact registering q hq
      · rw [(queue q).1, others u mine]
        exact linked q hq
      · rw [(queue q).1]
        exact left q next hq

/-- A step of slot `t` that concerns the block `x`. -/
theorem Receivers.change (h : Receivers place s) (pc : s'.pc = update s.pc t p)
    (rows : Stacks (fun q => (s'.queue q).receiverNext) 0 s'.receiverHead place')
    (same : ∀ q ≠ x, s'.created q = s.created q ∧ s'.dstId q = s.dstId q ∧
      (s'.queue q).receiverId = (s.queue q).receiverId ∧
      (s'.queue q).receiverNext = (s.queue q).receiverNext ∧ place' q = place q)
    (others : ∀ u ≠ t, s'.receiverQueue u = s.receiverQueue u ∧ (s.pc u).creates ≠ some x ∧
      (s.pc u).registers ≠ some x ∧ place x ≠ some u)
    (before : ∀ q, s.pc t = .claim q → q = x)
    (after : ∀ q, p.creates = some q ∨ p.registers = some q → q = x)
    (monitor : ∀ u, s.monitor = .slot u → s'.monitor = .slot u)
    (looked : ∀ q, s'.monitor = .sender q → s.monitor = .sender q)
    (block : ReceiverBlock place' s' x) (slot : ReceiverSlot place' s' t) :
    Receivers place' s' := by
  have pc_ne {u : ℕ} (other : u ≠ t) : s'.pc u = s.pc u := by
    rw [pc, update_of_ne other]
  have pc_self : s'.pc t = p := by
    rw [pc, update_self]
  refine ⟨rows, fun q => ?_, fun u => ?_⟩
  · by_cases different : q = x
    · exact different ▸ block
    obtain ⟨placed, claimed, unclaimed⟩ := h.block q
    obtain ⟨created, dst, id, -, on_list⟩ := same q different
    rw [← created, ← id] at placed claimed unclaimed
    rw [← on_list] at claimed
    refine ⟨fun u listed => ?_, claimed, fun made looks => unclaimed made (looked q looks)⟩
    obtain ⟨made, dst', used, named⟩ := placed u (on_list ▸ listed)
    refine ⟨made, dst.trans dst', used, named.imp_right fun zero => ⟨zero.1, ?_⟩⟩
    refine zero.2.imp (fun claiming => ?_) (monitor u)
    rw [pc_ne]
    · exact claiming
    · rintro rfl
      exact different (before q claiming)
  · by_cases mine : u = t
    · exact mine ▸ slot
    obtain ⟨creating, registering, linked, left⟩ := h.slot u
    obtain ⟨queues, apart, apart', unlisted⟩ := others u mine
    have off {q : Offset} (hq : (s.pc u).creates = some q ∨ (s.pc u).registers = some q) :
        q ≠ x := by
      rintro rfl
      exact hq.elim apart apart'
    rw [← pc_ne mine] at off creating registering linked left
    refine ⟨fun q hq => ?_, fun q hq => ?_, fun q hq => ?_, fun q next hq => ?_⟩
    · obtain ⟨created, -, id, -⟩ := same q (off (.inl hq))
      rw [created, id]
      exact creating q hq
    · obtain ⟨created, dst, id, -, on_list⟩ := same q (off (.inr hq))
      rw [created, dst, id, on_list]
      exact registering q hq
    · rw [(same q (off (.inr (by rw [hq]; rfl)))).2.2.2.1, queues]
      exact linked q hq
    · have listed := (h.leaving (pc_ne mine ▸ hq)).2.2.2
      rw [(same q fun here => unlisted (here ▸ listed)).2.2.2.1]
      exact left q next hq

/-- A step of slot `t` while it makes the queue `q`. -/
theorem Receivers.making (h : Receivers place s) (pc : s'.pc = update s.pc t p)
    (receiverQueue : s'.receiverQueue = s.receiverQueue) (monitor : s'.monitor = s.monitor)
    (created : s'.created = s.created)
    (same : ∀ x ≠ q, s'.dstId x = s.dstId x ∧ s'.queue x = s.queue x)
    (only : ∀ u x, (s.pc u).creates = some x → (u = t ↔ x = q)) (new : s.created q = false)
    (quiet : (s.pc t).registers = none) (after : p.creates = some q)
    (id : (s'.queue q).receiverId = 0 ∨ ∃ todo, p = .making q todo ∧ .receiverId ∈ todo)
    (head : s.receiverHead t = s.receiverQueue t) : Receivers place s' := by
  have pc_self : s'.pc t = p := by
    rw [pc, update_self]
  have free := h.place_new new
  have new' : s'.created q = false := created ▸ new
  have unregistered : p.registers = none := by
    cases p <;> simp_all [Pc.creates, Pc.registers]
  refine h.change (x := q) pc ?_ (fun x different => ?_)
    (fun u mine => ⟨?_, fun making => mine ((only u q making).2 rfl), h.registers_ne new u, ?_⟩)
    (fun x hx => ?_) (fun x hx => ?_) (fun u dead => monitor.trans dead)
    (fun x looks => monitor.symm.trans looks) (.of_new new' free)
    ⟨fun x hx => ?_, fun x hx => ?_, fun x hx => ?_, fun x next hx => ?_⟩
  · have heads : s'.receiverHead = s.receiverHead := by
      refine receiverHead_of_quiet pc (fun u _ => by rw [receiverQueue]) ?_
      rw [head, ← receiverQueue]
      cases p <;> simp_all [State.receiverHead, Pc.creates]
    rw [heads]
    refine h.rows.congr fun x u listed => ?_
    rw [(same x ?_).2]
    rintro rfl
    rw [free] at listed
    cases listed
  · obtain ⟨dst, queue⟩ := same x different
    rw [created, dst, queue]
    exact ⟨rfl, rfl, rfl, rfl, rfl⟩
  · rw [receiverQueue]
  · rw [free]
    nofun
  · rw [hx] at quiet
    cases quiet
  · rcases hx with hx | hx
    · exact Option.some.inj (hx.symm.trans after)
    · rw [unregistered] at hx
      cases hx
  · rw [pc_self] at hx ⊢
    obtain rfl := Option.some.inj (hx.symm.trans after)
    exact ⟨new', id⟩
  · rw [pc_self, unregistered] at hx
    cases hx
  · rw [pc_self] at hx
    rw [hx] at after
    cases after
  · rw [pc_self] at hx
    rw [hx] at after
    cases after

/-- The queue is on the list of its sender. -/
theorem Receivers.publishSender (h : Receivers place s) (here : s.pc t = .publishSender q)
    (only : ∀ u x, (s.pc u).creates = some x → (u = t ↔ x = q)) :
    Receivers place
      ({ s with
        senderQueue := update s.senderQueue t q
        created := update s.created q true }.setPc t .idle) := by
  obtain ⟨new, zero | ⟨todo, making, -⟩⟩ := (h.slot t).creating q (by rw [here]; rfl)
  · have free := h.place_new new
    have heads : State.receiverHead
        ({ s with
          senderQueue := update s.senderQueue t q
          created := update s.created q true }.setPc t .idle) = s.receiverHead :=
      receiverHead_of_quiet rfl (fun _ _ => rfl) (by simp [State.receiverHead, State.setPc, here])
    refine h.change (x := q) rfl ?_
      (fun x different => ⟨update_of_ne different _ _, rfl, rfl, rfl, rfl⟩)
      (fun u mine => ⟨rfl, fun making => mine ((only u q making).2 rfl), h.registers_ne new u, ?_⟩)
      (fun x hx => ?_) (fun x hx => ?_) (fun _ => id) (fun _ => id)
      ⟨fun u listed => ?_, fun _ some => absurd zero some, fun _ _ => zero⟩ ?_
    · rw [heads]
      exact h.rows
    · rw [free]
      nofun
    · cases here.symm.trans hx
    · rcases hx with hx | hx <;> cases hx
    · cases free.symm.trans listed
    · constructor <;> simp [State.setPc, Pc.creates, Pc.registers]
  · cases here.symm.trans making

/-- A store to a block that is no queue, or no queue any more. -/
theorem Receivers.write (h : Receivers place s) (slots : Slots s) (pc : s'.pc = s.pc)
    (receiverQueue : s'.receiverQueue = s.receiverQueue) (dstId : s'.dstId = s.dstId)
    (same : ∀ q ≠ x, s'.created q = s.created q ∧ s'.queue q = s.queue q)
    (free : place x = none) (new : s'.created x = false)
    (apart : ∀ t, (s.pc t).creates ≠ some x ∧ (s.pc t).registers ≠ some x)
    (monitor : ∀ u, s.monitor = .slot u → s'.monitor = .slot u)
    (looked : ∀ q, s'.monitor = .sender q → s.monitor = .sender q) : Receivers place s' := by
  have heads : s'.receiverHead = s.receiverHead :=
    funext fun u => receiverHead_congr (congrFun pc u) (congrFun receiverQueue u)
  have unused : s'.pc = update s.pc 0 .out := by
    rw [pc, ← slots.zero, update_eq_self]
  have zero : s'.pc 0 = .out := by
    rw [unused, update_self]
  refine h.change (x := x) unused ?_ (fun q different => ?_)
    (fun u _ => ⟨?_, (apart u).1, (apart u).2, ?_⟩) (fun q hq => ?_) (fun q hq => ?_) monitor looked
    (.of_new new free) ?_
  · rw [heads]
    refine h.rows.congr fun q u listed => ?_
    rw [(same q ?_).2]
    rintro rfl
    rw [free] at listed
    cases listed
  · obtain ⟨created, queue⟩ := same q different
    rw [created, queue, dstId]
    exact ⟨rfl, rfl, rfl, rfl, rfl⟩
  · rw [receiverQueue]
  · rw [free]
    nofun
  · rw [slots.zero] at hq
    cases hq
  · rcases hq with hq | hq <;> cases hq
  · constructor <;> rw [zero] <;> nofun

/-- The monitor turns to something else. -/
theorem Receivers.monitor {m : Monitor} (h : Receivers place s)
    (slot : ∀ t, s.monitor = .slot t → m = .slot t)
    (looked : ∀ q, m = .sender q → (s.queue q).receiverId = 0) :
    Receivers place { s with monitor := m } := by
  refine ⟨h.rows, fun q => ?_, fun t => ?_⟩
  · obtain ⟨placed, claimed, -⟩ := h.block q
    refine ⟨fun t listed => ?_, claimed, fun _ => looked q⟩
    obtain ⟨made, dst, used, id⟩ := placed t listed
    exact ⟨made, dst, used, id.imp_right fun zero => ⟨zero.1, zero.2.imp_right (slot t)⟩⟩
  · obtain ⟨creating, registering, linked, left⟩ := h.slot t
    exact ⟨creating, registering, linked, left⟩

theorem Pc.eq_of_registers (registers : p.registers = some q) :
    ∀ x, p.creates = some x ∨ p.registers = some x → x = q := by
  rintro x (hx | hx)
  · cases p <;> simp [Pc.creates, Pc.registers] at hx registers
  · exact Option.some.inj (hx.symm.trans registers)

/-- A slot that registers for the queue `q`. -/
theorem ReceiverSlot.of_registers (pc : s.pc t = p) (registers : p.registers = some q)
    (block : q ≠ 0 ∧ s.created q = true ∧ s.dstId q = t ∧ (s.queue q).receiverId = 0)
    (row : place q = if p = .claim q then some t else none)
    (linked : p = .publishReceiver q → (s.queue q).receiverNext = s.receiverQueue t) :
    ReceiverSlot place s t := by
  obtain ⟨nonzero, made, dst, nobody⟩ := block
  have only := Pc.eq_of_registers registers
  subst pc
  refine ⟨fun x hx => ?_, fun x hx => ?_, fun x hx => ?_, fun x next hx => ?_⟩
  · cases here : s.pc t <;> simp [here, Pc.creates, Pc.registers] at hx registers
  · obtain rfl := only x (.inr hx)
    exact ⟨nonzero, made, dst, nobody, row⟩
  · obtain rfl := only x (.inr (by rw [hx]; rfl))
    exact linked hx
  · rw [hx] at registers
    cases registers

/-- A client finds a queue of its own without a receiver. -/
theorem Receivers.unwrap (h : Receivers place s) (slots : Slots s) (idle : s.pc t = .idle)
    (some : q ≠ 0) (made : s.created q = true) (dst : s.dstId q = t)
    (nobody : (s.queue q).receiverId = 0) : Receivers place (s.setPc t (.linkReceiver q)) := by
  have free : place q = none := by
    refine Option.eq_none_iff_forall_ne_some.2 fun u listed => ?_
    obtain ⟨-, dst', used, id⟩ := (h.block q).placed u listed
    obtain rfl := dst'.symm.trans dst
    rcases id with id | ⟨-, claiming | dead⟩
    · exact used (id.symm.trans nobody)
    · cases idle.symm.trans claiming
    · have live := slots.monitor _ dead
      rw [idle] at live
      cases live
  refine h.change (x := q) rfl ?_ (fun x _ => ⟨rfl, rfl, rfl, rfl, rfl⟩)
    (fun u mine => ⟨rfl, h.creates_ne made u, fun registering => ?_, ?_⟩) (fun x hx => ?_)
    (Pc.eq_of_registers rfl) (fun _ => id) (fun _ => id) ⟨fun u listed => ?_,
      fun _ some => absurd nobody some, (h.block q).looked⟩
    (.of_registers (update_self _ _ _) rfl ⟨some, made, dst, nobody⟩ ?_ ?_)
  · have heads : (s.setPc t (.linkReceiver q)).receiverHead = s.receiverHead :=
      receiverHead_of_quiet rfl (fun _ _ => rfl) (by simp [State.receiverHead, State.setPc, idle])
    rw [heads]
    exact h.rows
  · exact mine (((h.slot u).registering q registering).2.2.1.symm.trans dst)
  · rw [free]
    nofun
  · cases idle.symm.trans hx
  · rw [free] at listed
    cases listed
  · rw [free, if_neg Pc.noConfusion]
  · rintro ⟨⟩

/-- Nobody else is at a queue that slot `t` registers for. -/
theorem Receivers.registers (h : Receivers place s) (here : (s.pc t).registers = some q) :
    ∀ u ≠ t, (s.pc u).creates ≠ some q ∧ (s.pc u).registers ≠ some q ∧ place q ≠ some u := by
  obtain ⟨-, made, dst, -⟩ := (h.slot t).registering q here
  refine fun u mine =>
    ⟨h.creates_ne made u, fun registering => ?_, fun listed => ?_⟩
  · exact mine (((h.slot u).registering q registering).2.2.1.symm.trans dst)
  · exact mine (((h.block q).placed u listed).2.1.symm.trans dst)

theorem Receivers.linkReceiver (h : Receivers place s) (here : s.pc t = .linkReceiver q) :
    Receivers place ((s.setQueue q { s.queue q with receiverNext := s.receiverQueue t }).setPc t
      (.publishReceiver q)) := by
  have registers : (s.pc t).registers = some q := by
    rw [here]
    rfl
  obtain ⟨some, made, dst, nobody, on_list⟩ := (h.slot t).registering q registers
  have free : place q = none := by
    rw [on_list, here]
    rfl
  have others := h.registers registers
  have heads : State.receiverHead ((s.setQueue q { s.queue q with
      receiverNext := s.receiverQueue t }).setPc t (.publishReceiver q)) = s.receiverHead :=
    receiverHead_of_quiet rfl (fun _ _ => rfl) (by
      simp [State.receiverHead, State.setPc, State.setQueue, here])
  have zero : (update s.queue q { s.queue q with receiverNext := s.receiverQueue t } q).receiverId =
      0 := by
    rw [update_self]
    exact nobody
  refine h.change (x := q) rfl ?_ (fun x different => ?_) (fun u mine => ⟨rfl, others u mine⟩)
    (fun x hx => ?_) (Pc.eq_of_registers rfl) (fun _ => id) (fun _ => id)
    ⟨fun u listed => ?_, fun _ some => absurd zero some, fun _ _ => zero⟩
    (.of_registers (update_self _ _ _) rfl ⟨some, made, dst, zero⟩ ?_ fun _ => ?_)
  · rw [heads]
    exact (receiverNext_update s.queue q _).symm ▸ h.rows.write free
  · simp [State.setPc, State.setQueue, different]
  · cases here.symm.trans hx
  · rw [free] at listed
    cases listed
  · rw [free, if_neg Pc.noConfusion]
  · simp [State.setPc, State.setQueue]

theorem Receivers.publishReceiver (h : Receivers place s) (slots : Slots s)
    (here : s.pc t = .publishReceiver q) :
    Receivers (update place q (some t))
      ({ s with receiverQueue := update s.receiverQueue t q }.setPc t (.claim q)) := by
  obtain ⟨from_one, -⟩ := slots.range t (by rw [here]; nofun)
  have registers : (s.pc t).registers = some q := by
    rw [here]
    rfl
  obtain ⟨nonzero, made, dst, nobody, on_list⟩ := (h.slot t).registering q registers
  have free : place q = none := by
    rw [on_list, here]
    rfl
  have head : s.receiverHead t = s.receiverQueue t := by
    simp only [State.receiverHead, here]
  have heads : State.receiverHead ({ s with receiverQueue := update s.receiverQueue t q }.setPc t
      (.claim q)) = update s.receiverHead t q :=
    receiverHead_of_pc rfl (fun _ mine => update_of_ne mine _ _) (by
      simp [State.receiverHead, State.setPc])
  have pc_self : (s.setPc t (.claim q)).pc t = .claim q := update_self _ _ _
  have listed : update place q (some t) q = some t := update_self _ _ _
  refine h.change (x := q) rfl ?_
    (fun x different => ⟨rfl, rfl, rfl, rfl, update_of_ne different _ _⟩)
    (fun u mine => ⟨update_of_ne mine _ _, h.registers registers u mine⟩)
    (fun x hx => ?_) (Pc.eq_of_registers rfl) (fun _ => id) (fun _ => id)
    ⟨fun u hu => ?_, fun _ some => absurd nobody some, (h.block q).looked⟩
    (.of_registers pc_self rfl ⟨nonzero, made, dst, nobody⟩ (listed.trans (if_pos rfl).symm) ?_)
  · rw [heads]
    exact h.rows.link nonzero free (((h.slot t).linked q here).trans head.symm)
  · cases here.symm.trans hx
  · obtain rfl := Option.some.inj (listed.symm.trans hu)
    exact ⟨made, dst, by omega, .inr ⟨nobody, .inl pc_self⟩⟩
  · rintro ⟨⟩

theorem Receivers.claim (h : Receivers place s) (slots : Slots s) (here : s.pc t = .claim q) :
    Receivers place ((s.setQueue q { s.queue q with receiverId := t % 2 ^ 16 }).setPc t .idle) := by
  obtain ⟨from_one, few⟩ := slots.range t (by rw [here]; nofun)
  have small : t % 2 ^ 16 = t := Nat.mod_eq_of_lt (by rw [maxThread] at few; omega)
  have registers : (s.pc t).registers = some q := by
    rw [here]
    rfl
  obtain ⟨nonzero, made, dst, nobody, on_list⟩ := (h.slot t).registering q registers
  rw [if_pos here] at on_list
  have heads : State.receiverHead ((s.setQueue q { s.queue q with
      receiverId := t % 2 ^ 16 }).setPc t .idle) = s.receiverHead :=
    receiverHead_of_quiet rfl (fun _ _ => rfl) (by
      simp [State.receiverHead, State.setPc, State.setQueue, here])
  have links : (fun x => (update s.queue q { s.queue q with
      receiverId := t % 2 ^ 16 } x).receiverNext) = fun x => (s.queue x).receiverNext := by
    rw [receiverNext_update]
    exact update_eq_self q _
  have named : (update s.queue q { s.queue q with receiverId := t % 2 ^ 16 } q).receiverId = t := by
    rw [update_self]
    exact small
  refine h.change (x := q) rfl ?_ (fun x different => ?_)
    (fun u mine => ⟨rfl, h.registers registers u mine⟩)
    (fun x hx => ?_) (fun x hx => ?_) (fun _ => id) (fun _ => id)
    ⟨fun u hu => ?_, fun _ _ => on_list.trans (congrArg some named.symm), fun _ looks => ?_⟩ ?_
  · rw [heads]
    exact links.symm ▸ h.rows
  · simp [State.setPc, State.setQueue, different]
  · exact Pc.claim.inj (hx.symm.trans here)
  · rcases hx with hx | hx <;> cases hx
  · obtain rfl := Option.some.inj (on_list.symm.trans hu)
    exact ⟨made, dst, by omega, .inl named⟩
  · exact absurd registers (slots.apart q (by rw [show s.monitor = .sender q from looks]; rfl) t).2
  · constructor <;> simp [State.setPc, Pc.creates, Pc.registers]

theorem Receivers.leaveReceiver {next : Offset} (h : Receivers place s)
    (here : s.pc t = .leaveReceiver q next) :
    Receivers (update place q none)
      ((s.setQueue q { s.queue q with receiverId := 0 }).setPc t (.receiver next)) := by
  obtain ⟨nonzero, next_eq, first, listed⟩ := h.leaving here
  obtain ⟨made, dst, -⟩ := (h.block q).placed t listed
  have popped := h.rows.pop (q := t) (by rwa [first])
  rw [first, ← next_eq] at popped
  have heads : State.receiverHead ((s.setQueue q { s.queue q with receiverId := 0 }).setPc t
      (.receiver next)) = update s.receiverHead t next :=
    receiverHead_of_pc rfl (fun _ _ => rfl) (by simp [State.receiverHead, State.setPc])
  have links : (fun x => (update s.queue q { s.queue q with receiverId := 0 } x).receiverNext) =
      fun x => (s.queue x).receiverNext := by
    rw [receiverNext_update]
    exact update_eq_self q _
  have zero : (update s.queue q { s.queue q with receiverId := 0 } q).receiverId = 0 := by
    rw [update_self]
  refine h.change (x := q) rfl ?_ (fun x different => ?_)
    (fun u mine => ⟨rfl, h.creates_ne made u, fun registering => ?_, ?_⟩)
    (fun x hx => ?_) (fun x hx => ?_) (fun _ => id) (fun _ => id)
    ⟨fun u hu => ?_, fun _ some => absurd zero some, fun _ _ => zero⟩ ?_
  · rw [heads]
    exact links.symm ▸ popped
  · simp [State.setPc, State.setQueue, different]
  · exact mine (((h.slot u).registering q registering).2.2.1.symm.trans dst)
  · rw [listed]
    exact fun same => mine (Option.some.inj same).symm
  · cases here.symm.trans hx
  · rcases hx with hx | hx <;> cases hx
  · cases (update_self q none place).symm.trans hu
  · constructor <;> simp [State.setPc, Pc.creates, Pc.registers]

end Receivers

end CxlShm.Registry
