import CxlShm.Queue.Fifo
import CxlShm.Recovery.Redo
import CxlShm.Recovery.Unlink

/-!
# A queue whose receiver crashes

The receiver of a queue may stop at any access.  The monitor then runs `redo_ref_cnt` and
`recovery_garbage_collection` on its slot, which drops its `RootRef`s, sweeps the messages from
`q->start` up to `q->end` and takes the receiver off the queue; after that another client may
attach.  The sweep empties the slots it visits and leaves `q->start` where it is, so the queue
survives exactly the recoveries that find nothing to sweep (`intact_of_careful`).
-/

namespace CxlShm.Queue

open Reachability

/-- The receiver's call is gone.  If it had taken a message off the queue, the message counts as
received. -/
def State.abandon (q : State) : State :=
  match q.receiver with
  | .loadPptr k =>
    { q with receiver := .idle, unwraps := q.unwraps ++ [⟨some (q.pptr k), q.unwrapWrote⟩] }
  | _ => { q with receiver := .idle }

/-- Number of slots from `q->start` up to `q->end`. -/
def between (q : State) : ℕ := (q.end_ + messageBufferSize - q.start) % messageBufferSize

/-- The contents of the slots from `q->start` up to `q->end`, in order. -/
def pending (q : State) : List Offset :=
  (List.range (between q)).map fun j => q.buffer ((q.start + j) % messageBufferSize)

/-! ## The queue alone -/

section

variable {p p' : Endpoints} {h : ℕ} {q q' : State}

/-- While no call of the receiver is under way, only slots, indices and the sender matter, and the
receiver may be another. -/
theorem Fifo.renew (inv : Fifo p h q) (sameSender : p'.sender = p.sender)
    (idle : q.receiver = .idle) (idle' : q'.receiver = .idle) (start : q'.start = q.start)
    (end_ : q'.end_ = q.end_) (buffer : ∀ i, q'.buffer i = q.buffer i)
    (sending : q'.sender = q.sender) (sends : q'.sends = q.sends) (unwraps : q'.unwraps = q.unwraps)
    (sendWrote : q'.sendWrote = q.sendWrote)
    (ctl : q.sender.calling → q'.base.ctl p.sender = q.base.ctl p.sender) : Fifo p' h q' := by
  have sentSame : sent q' = sent q := by simp only [sent, sends]
  have storedSame : stored p' q' = stored p q := by
    unfold stored
    rw [sending, sameSender]
    cases hs : q.sender with
    | link o => simp only [ctl (by rw [hs]; rfl)]
    | _ => rfl
  have clearedNot : cleared p' q' = cleared p q := by simp [cleared, idle, idle']
  have returnSame : returning q' = returning q := by simp [returning, idle, idle']
  refine ⟨start ▸ inv.start, by rw [end_, sentSame]; exact inv.end_, sentSame ▸ inv.le,
    sentSame ▸ inv.lap, sentSame ▸ inv.nonzero, ?_, ?_, by simp [RecvOk, idle'], ?_, ?_,
    by simp [idle', Unwrap.quiet], ?_, ?_⟩
  · rw [clearedNot, storedSame, sentSame]
    refine inv.window.congr (fun i _ => buffer i) fun n _ _ => ?_
    simp only [item, sentSame, sending]
  · have old := inv.send
    unfold SendOk at old ⊢
    rw [sending, sentSame, sameSender]
    cases hs : q.sender with
    | link o =>
      rw [ctl (by rw [hs]; rfl)]
      simpa only [hs] using old
    | idle | loadPptr => trivial
    | returned => simp only [hs] at old
    | testEnd | testStart | lapEnd | lapStart | slotEnd | loadEnd | storeEnd =>
      simpa only [hs] using old
  · rw [returnSame, sentSame]
    simpa only [received, unwraps] using inv.results
  · rw [sending, sendWrote]
    exact inv.sendQuiet
  · rw [sends]
    exact inv.refused
  · rw [unwraps]
    exact inv.empty

/-- A queue whose indices agree is empty. -/
theorem Fifo.consumed (inv : Fifo p h q) (same : q.start = q.end_) : h = (sent q).length := by
  have start := inv.start
  have end_ := inv.end_
  have le := inv.le
  have lap := inv.lap
  simp only [messageBufferSize] at start end_
  omega

/-- A receiver that stopped with the queue empty has nothing of the queue in its hands. -/
theorem Fifo.abandon (inv : Fifo p h q) (same : q.start = q.end_) :
    Fifo p h (State.abandon q) := by
  have all := inv.consumed same
  have recv := inv.recv
  unfold RecvOk at recv
  have quiet : cleared p q = false → (∀ k, q.receiver ≠ .loadPptr k) →
      Fifo p h { q with receiver := .idle } := by
    intro clear notLast
    have returnNone : returning q = 0 := by
      unfold returning
      cases hr : q.receiver <;> simp_all
    refine ⟨inv.start, inv.end_, inv.le, inv.lap, inv.nonzero, ?_, inv.send, by simp [RecvOk], ?_,
      inv.sendQuiet, by simp [Unwrap.quiet], inv.refused, inv.empty⟩
    · have window := inv.window
      rw [clear] at window
      exact window
    · have results := inv.results
      rw [returnNone] at results
      exact results
  cases hr : q.receiver with
  | idle =>
    have same : State.abandon q = q := by
      cases q
      simp only [State.abandon] at hr ⊢
      rw [hr]
    rwa [same]
  | loadReceiverId | loadReceiverQueue | storeReceiverNext | storeReceiverQueue | storeReceiverId
  | testStart | testEnd =>
    have idle : State.abandon q = { q with receiver := .idle } := by simp [State.abandon, hr]
    rw [idle]
    exact quiet (by simp [cleared, hr]) (by simp [hr])
  | bufferStart | testBuffer | alloc | linkStart | linkBuffer | link | unlinkStart | unlinkBuffer
  | unlink | loadStart | storeStart =>
    rw [hr] at recv
    simp only at recv
    omega
  | returned => simp [hr] at recv
  | loadPptr k =>
    rw [hr] at recv
    obtain ⟨pos, held⟩ := recv
    have booked : State.abandon q = { q with
        receiver := .idle, unwraps := q.unwraps ++ [⟨some (q.pptr k), q.unwrapWrote⟩] } := by
      simp [State.abandon, hr]
    rw [booked]
    refine ⟨inv.start, inv.end_, inv.le, inv.lap, inv.nonzero, ?_, inv.send, by simp [RecvOk], ?_,
      inv.sendQuiet, by simp [Unwrap.quiet], inv.refused, ?_⟩
    · have window := inv.window
      have clear : cleared p q = false := by simp [cleared, hr]
      rw [clear] at window
      exact window
    · have results := inv.results
      simp only [returning, hr] at results
      have last : received { q with
          receiver := .idle, unwraps := q.unwraps ++ [⟨some (q.pptr k), q.unwrapWrote⟩] } =
          received q ++ [q.pptr k] := by
        simp [received]
      rw [last, results, held]
      show _ = (sent q).take h
      have inside : h - 1 < (sent q).length := by omega
      calc (sent q).take (h - 1) ++ [(sent q).getD (h - 1) 0]
          = (sent q).take (h - 1) ++ [(sent q)[h - 1]] := by
            rw [List.getD_eq_getElem _ _ inside]
        _ = (sent q).take (h - 1 + 1) := by rw [List.take_concat_get' _ _ inside]
        _ = (sent q).take h := by rw [Nat.sub_add_cancel pos]
    · intro r hr' none
      rcases List.mem_append.1 hr' with old | new
      · exact inv.empty r old none
      · simp only [List.mem_singleton] at new
        simp [new] at none

/-- Between the calls, the slots say what has been sent and not received. -/
theorem Fifo.intact (inv : Fifo p h q) (sending : q.sender = .idle) (receiving : q.receiver = .idle) :
    (∀ o ∈ pending q, o ≠ 0) ∧ sent q = received q ++ pending q := by
  have le := inv.le
  have lap := inv.lap
  have window := inv.window
  have clear : cleared p q = false := by simp [cleared, receiving]
  have store : stored p q = false := by simp [stored, sending]
  rw [clear, store] at window
  have count : between q = (sent q).length - h := by
    rw [between, inv.start, inv.end_]
    simp only [messageBufferSize]
    omega
  have slots : pending q = (sent q).drop h := by
    apply List.ext_getElem
    · simp [pending, count]
    · intro j hj hj'
      simp only [List.length_drop] at hj'
      have full := window.full (h + j) (by simp) (by simp; omega)
      rw [item_of_lt (by omega), List.getD_eq_getElem _ _ (by omega)] at full
      simp only [pending, List.getElem_map, List.getElem_range, List.getElem_drop, inv.start]
      rw [← full, Nat.mod_add_mod]
  have results := inv.results
  simp only [returning, receiving] at results
  rw [slots, results]
  refine ⟨fun o ho => inv.nonzero o (List.mem_of_mem_drop ho), ?_⟩
  exact (List.take_append_drop h (sent q)).symm

end

/-! ## The receiver and its recovery -/

namespace Crash

/-- A reference that the monitor drops. -/
inductive Task
  | root (k : ℕ)
  | slot (i : ℕ)
  deriving DecidableEq, Repr

def Task.loc : Task → QueueLoc
  | .root k => .root k
  | .slot i => .slot i

/-- The receiver, or what the monitor is doing about it. -/
inductive Phase
  | alive
  | crashed
  /-- in the loop over the pages of `RootRef`s -/
  | roots
  /-- `i != receiver_msg_queue->end` -/
  | sweep (i : ℕ)
  /-- `receiver_msg_queue->buffer[i] != 0` -/
  | testBuffer (i : ℕ)
  /-- `ref_cnt` of `recovery_test_free` -/
  | testFree (task : Task)
  /-- inside `recovery_unlink_reference` -/
  | unlink (task : Task) (c : Call QueueLoc)
  /-- `receiver_msg_queue->receiver_id = 0` -/
  | detach
  /-- the reset of the thread-local state and its release -/
  | release
  /-- recovered, and no other receiver yet -/
  | gone
  deriving DecidableEq, Repr

/-- Where the monitor goes on after it has dropped a reference. -/
def Task.next : Task → Phase
  | .root _ => .roots
  | .slot i => .sweep ((i + 1) % messageBufferSize)

/-- The queue, its receiver, and how far the receiver's recovery is.  The objects have no embedded
references. -/
structure State where
  queue : Queue.State
  receiver : ℕ
  phase : Phase

/-- What happens next.  `attach r v` makes client `r`, whose list of queues is `v`, the receiver. -/
inductive Action
  | live (a : Queue.Action)
  | crash
  | redo
  | dropRoot (k : ℕ)
  | dropQueues
  | monitor (weak : Bool)
  | attach (r : ℕ) (v : Offset)

variable (sender : ℕ) (offset : Offset)

namespace State

/-- The endpoints at this time. -/
def endpoints (s : State) : Endpoints := ⟨sender, s.receiver, offset⟩

/-- Steps of the receiver need one; nobody else runs under the id of a receiver that has stopped. -/
def mayRun (s : State) : Queue.Action → Bool
  | .sentTo _ | .send _ => true
  | .unwrap | .recv _ _ => s.phase = .alive
  | .others b => s.phase = .alive ∨ s.phase = .gone ∨ b.client ≠ some s.receiver

def setPhase (s : State) (φ : Phase) : State := { s with phase := φ }

def setMem (s : State) (m : Mem QueueLoc) : State :=
  { s with queue := { s.queue with base := { s.queue.base with mem := m } } }

/-- The next access of the monitor. -/
def monitorStep (s : State) (weak : Bool) : Option State :=
  match s.phase with
  | .alive | .crashed | .roots | .gone => none
  | .sweep i => some (s.setPhase (if i = s.queue.end_ then .detach else .testBuffer i))
  | .testBuffer i =>
    some (s.setPhase (if s.queue.buffer i = 0 then (Task.slot i).next else .testFree (.slot i)))
  | .testFree task =>
    let o := s.queue.base.mem.loc task.loc
    some (s.setPhase (if getRefCntFromInfo (s.queue.base.mem.refInfo o) = 0 then task.next
      else .unlink task (recoveryCall task.loc o)))
  | .unlink task c =>
    let (m, rest) := c.recoveryExec s.receiver s.queue.base.mem weak
    some ((s.setMem m).setPhase (rest.elim task.next (.unlink task)))
  | .detach => some { s with queue := { s.queue with receiverId := 0 }, phase := .release }
  | .release =>
    some { s with
      queue := { s.queue with base := s.queue.base.setCtl s.receiver .absent, receiverQueue := 0 }
      phase := .gone }

/-- The step function. -/
def step (s : State) : Action → Option State
  | .live a =>
    if s.mayRun a then (s.queue.step (s.endpoints sender offset) a).map ({ s with queue := · })
    else none
  | .crash => if s.phase = .alive then some (s.setPhase .crashed) else none
  | .redo =>
    if s.phase = .crashed then
      some (({ s with queue := s.queue.abandon }.setMem
        (redoRefCnt s.queue.base.mem s.receiver).1).setPhase .roots)
    else none
  | .dropRoot k =>
    if s.phase = .roots ∧ s.queue.pptr k ≠ 0 then some (s.setPhase (.testFree (.root k))) else none
  | .dropQueues =>
    if s.phase = .roots then
      some (s.setPhase (if s.queue.receiverQueue = offset then .sweep s.queue.start else .release))
    else none
  | .monitor weak => s.monitorStep weak
  | .attach r v =>
    if s.phase = .gone ∧ r ≠ sender then
      some { queue := { s.queue with receiverQueue := v }, receiver := r, phase := .alive }
    else none

end State

/-- The sender and the rest of the system keep to the protocol. -/
def Undisturbed (s : State) (a : Action) (s' : State) : Prop :=
  match a with
  | .live b => Queue.Undisturbed (s.endpoints sender offset) s.queue b s'.queue
  | _ => True

/-- The redo finds the queue empty and does not store into a slot, and the sweep finds nothing. -/
def Careful (s : State) (a : Action) (s' : State) : Prop :=
  match a with
  | .redo => s.queue.start = s.queue.end_ ∧ ∀ i, s'.queue.buffer i = s.queue.buffer i
  | .monitor _ => ∀ i, s.phase = .sweep i → i = s.queue.end_
  | _ => True

/-- No call and no recovery is under way. -/
def Quiescent (s : State) : Prop :=
  s.queue.sender = .idle ∧ s.queue.receiver = .idle ∧
    (s.phase = .alive ∨ s.phase = .crashed ∨ s.phase = .gone)

instance (s : State) : Decidable (Quiescent s) := inferInstanceAs (Decidable (_ ∧ _))

/-- The slots from `q->start` up to `q->end` hold objects, namely those that were sent and not yet
received, in order. -/
def Intact (s : State) : Prop :=
  (∀ o ∈ pending s.queue, o ≠ 0) ∧ sent s.queue = received s.queue ++ pending s.queue


/-! ## One step -/

/-- The phases that a careful recovery goes through: it drops `RootRef`s only. -/
def Phase.sweepless : Phase → Prop
  | .testBuffer _ | .testFree (.slot _) | .unlink (.slot _) _ => False
  | .unlink (.root k) c => c.ref = .root k
  | .alive | .crashed | .roots | .sweep _ | .testFree (.root _) | .detach | .release | .gone => True

/-- The queue is a queue of the current endpoints; from the redo on, the receiver's call is gone. -/
structure Inv (s : State) : Prop where
  fifo : ∃ h, Fifo (s.endpoints sender offset) h s.queue
  other : s.receiver ≠ sender
  parked : s.phase ≠ .alive → s.phase ≠ .crashed → s.queue.receiver = .idle
  sweepless : s.phase.sweepless

section Step

variable {sender offset} {s s' : State}

/-- Steps that are not the receiver's leave it where it is. -/
theorem receiver_of_live {q' : Queue.State} {a : Queue.Action} (idle : s.phase ≠ .alive)
    (may : s.mayRun a) (hs : s.queue.step (s.endpoints sender offset) a = some q') :
    q'.receiver = s.queue.receiver := by
  cases a with
  | unwrap => simp [State.mayRun, idle] at may
  | recv weak tbr => simp [State.mayRun, idle] at may
  | sentTo r =>
    simp only [Queue.State.step] at hs
    split at hs <;> cases hs
    rfl
  | others b =>
    simp only [Queue.State.step, Option.map_eq_some_iff] at hs
    obtain ⟨b, -, rfl⟩ := hs
    rfl
  | send weak =>
    simp only [Queue.State.step, Option.map_eq_some_iff] at hs
    obtain ⟨q₁, hs, rfl⟩ := hs
    have moved : q₁.receiver = s.queue.receiver := by
      unfold Queue.State.sendStep at hs
      split at hs
      all_goals first
        | (cases hs; rfl)
        | (simp only [Option.map_eq_some_iff] at hs
           obtain ⟨b, -, rfl⟩ := hs
           rfl)
        | cases hs
    unfold Queue.State.noteSend
    split <;> exact moved

theorem Inv.live (inv : Inv sender offset s) {a : Queue.Action} {q' : Queue.State}
    (may : s.mayRun a) (hs : s.queue.step (s.endpoints sender offset) a = some q')
    (ok : Queue.Undisturbed (s.endpoints sender offset) s.queue a q') :
    Inv sender offset { s with queue := q' } := by
  obtain ⟨h, fifo⟩ := inv.fifo
  refine ⟨fifo.step hs ok, inv.other, fun alive crashed => ?_, inv.sweepless⟩
  exact (receiver_of_live (s := s) alive may hs).trans (inv.parked alive crashed)

/-- The monitor changes the memory but not the slots. -/
theorem Inv.setMem (inv : Inv sender offset s) {m : Mem QueueLoc} {φ : Phase}
    (idle : s.queue.receiver = .idle) (slots : ∀ i, m.loc (.slot i) = s.queue.buffer i)
    (sweepless : φ.sweepless) : Inv sender offset ((s.setMem m).setPhase φ) := by
  obtain ⟨h, fifo⟩ := inv.fifo
  refine ⟨⟨h, ?_⟩, inv.other, fun _ _ => idle, sweepless⟩
  exact fifo.renew rfl idle idle rfl rfl slots rfl rfl rfl rfl fun _ => rfl

theorem Inv.setPhase (inv : Inv sender offset s) {φ : Phase} (idle : s.queue.receiver = .idle)
    (sweepless : φ.sweepless) : Inv sender offset (s.setPhase φ) :=
  ⟨inv.fifo, inv.other, fun _ _ => idle, sweepless⟩

theorem Inv.monitorStep (inv : Inv sender offset s) {weak : Bool}
    (hs : s.monitorStep weak = some s') (empty : ∀ i, s.phase = .sweep i → i = s.queue.end_) :
    Inv sender offset s' := by
  unfold State.monitorStep at hs
  have sweepless := inv.sweepless
  have idle : s.phase ≠ .alive → s.phase ≠ .crashed → s.queue.receiver = .idle := inv.parked
  cases phase : s.phase with
  | alive | crashed | roots | gone => simp only [phase] at hs; cases hs
  | sweep i =>
    simp only [phase, empty i phase, if_true, Option.some.injEq] at hs
    subst hs
    exact inv.setPhase (idle (by simp [phase]) (by simp [phase])) trivial
  | testBuffer i => simp only [phase, Phase.sweepless] at sweepless
  | testFree task =>
    cases task with
    | slot i => simp only [phase, Phase.sweepless] at sweepless
    | root k =>
      simp only [phase, Option.some.injEq] at hs
      subst hs
      apply inv.setPhase (idle (by simp [phase]) (by simp [phase]))
      split
      · trivial
      · rfl
  | unlink task c =>
    cases task with
    | slot i => simp only [phase, Phase.sweepless] at sweepless
    | root k =>
      simp only [phase, Phase.sweepless] at sweepless
      simp only [phase, Option.some.injEq] at hs
      subst hs
      apply inv.setMem (idle (by simp [phase]) (by simp [phase]))
      · intro i
        exact Call.recoveryExec_loc (by simp [sweepless])
      · cases rest : (c.recoveryExec s.receiver s.queue.base.mem weak).2 with
        | none => trivial
        | some c' =>
          show c'.ref = .root k
          rw [Call.recoveryExec_ref rest, sweepless]
  | detach =>
    simp only [phase, Option.some.injEq] at hs
    subst hs
    have parked := idle (by simp [phase]) (by simp [phase])
    obtain ⟨h, fifo⟩ := inv.fifo
    refine ⟨⟨h, ?_⟩, inv.other, fun _ _ => parked, trivial⟩
    exact fifo.renew rfl parked parked rfl rfl (fun _ => rfl) rfl rfl rfl rfl fun _ => rfl
  | release =>
    simp only [phase, Option.some.injEq] at hs
    subst hs
    have parked := idle (by simp [phase]) (by simp [phase])
    obtain ⟨h, fifo⟩ := inv.fifo
    refine ⟨⟨h, ?_⟩, inv.other, fun _ _ => parked, trivial⟩
    refine fifo.renew rfl parked parked rfl rfl (fun _ => rfl) rfl rfl rfl rfl fun _ => ?_
    exact Function.update_of_ne inv.other.symm _ _

theorem Inv.step (inv : Inv sender offset s) {a : Action}
    (hs : s.step sender offset a = some s')
    (ok : Undisturbed sender offset s a s' ∧ Careful s a s') : Inv sender offset s' := by
  obtain ⟨undisturbed, careful⟩ := ok
  cases a with
  | live b =>
    simp only [State.step, Option.ite_none_right_eq_some, Option.map_eq_some_iff] at hs
    obtain ⟨may, q', hs, rfl⟩ := hs
    exact inv.live may hs undisturbed
  | crash =>
    simp only [State.step, Option.ite_none_right_eq_some, Option.some.injEq] at hs
    obtain ⟨-, rfl⟩ := hs
    exact ⟨inv.fifo, inv.other, fun _ crashed => absurd rfl crashed, trivial⟩
  | redo =>
    simp only [State.step, Option.ite_none_right_eq_some, Option.some.injEq] at hs
    obtain ⟨-, rfl⟩ := hs
    obtain ⟨h, fifo⟩ := inv.fifo
    have gone : s.queue.abandon.receiver = .idle := by
      unfold Queue.State.abandon
      split <;> rfl
    have abandoned : Inv sender offset ({ s with queue := s.queue.abandon }.setPhase .roots) :=
      ⟨⟨h, fifo.abandon careful.1⟩, inv.other, fun _ _ => gone, trivial⟩
    refine abandoned.setMem (φ := .roots) gone (fun i => ?_) trivial
    have kept : s.queue.abandon.buffer i = s.queue.buffer i := by
      unfold Queue.State.abandon
      split <;> rfl
    exact (careful.2 i).trans kept.symm
  | dropRoot k =>
    simp only [State.step, Option.ite_none_right_eq_some, Option.some.injEq] at hs
    obtain ⟨⟨phase, -⟩, rfl⟩ := hs
    exact inv.setPhase (inv.parked (by simp [phase]) (by simp [phase])) trivial
  | dropQueues =>
    simp only [State.step, Option.ite_none_right_eq_some, Option.some.injEq] at hs
    obtain ⟨phase, rfl⟩ := hs
    apply inv.setPhase (inv.parked (by simp [phase]) (by simp [phase]))
    split <;> trivial
  | monitor weak => exact inv.monitorStep hs careful
  | attach r v =>
    simp only [State.step, Option.ite_none_right_eq_some, Option.some.injEq] at hs
    obtain ⟨⟨phase, other⟩, rfl⟩ := hs
    have parked := inv.parked (by simp [phase]) (by simp [phase])
    obtain ⟨h, fifo⟩ := inv.fifo
    refine ⟨⟨h, ?_⟩, other, fun alive => absurd rfl alive, trivial⟩
    exact fifo.renew rfl parked parked rfl rfl (fun _ => rfl) rfl rfl rfl rfl fun _ => rfl

end Step

/-! ## Runs -/

/-- A queue that has just been made, with a client other than the sender for a receiver. -/
structure Fresh (s : State) : Prop where
  created : Created s.queue
  other : s.receiver ≠ sender
  alive : s.phase = .alive

variable {sender offset}

/-- Whenever nothing is under way, the slots from start to end hold the messages that have been sent
and not received, in every run in which each recovery of a receiver finds the queue empty. -/
theorem intact_of_careful {s₀ s : State} (fresh : Fresh sender s₀)
    (h : Reachable (State.step sender offset)
      (fun s a s' => Undisturbed sender offset s a s' ∧ Careful s a s') s₀ s)
    (quiet : Quiescent s) : Intact s := by
  have inv : Inv sender offset s := by
    refine h.invariant (I := Inv sender offset) ?_ fun _ _ _ inv hs ok => inv.step hs ok
    refine ⟨⟨0, fresh.created.fifo _⟩, fresh.other, fun alive => absurd fresh.alive alive, ?_⟩
    rw [fresh.alive]
    trivial
  obtain ⟨n, fifo⟩ := inv.fifo
  exact fifo.intact quiet.1 quiet.2.1

/-! ## Two runs -/

/-- The queue at 64 of client 1, whose `RootRef` 0 holds the object at 8, with client 2 for a
receiver. -/
def started : State where
  queue :=
    { base := { CxlShm.State.init with
        mem :=
          { refInfo := fun _ => packRefInfo 1 1 1
            eraArray := fun _ => 1
            loc := fun r => if r = .root 0 then 8 else 0
            redo := fun _ _ => none }
        ctl := fun t => if t = 1 ∨ t = 2 ∨ t = 3 then .idle else .absent }
      start := 0, end_ := 0, receiverId := 0, receiverNext := 0, receiverQueue := 0
      sender := .idle, receiver := .idle, sendWrote := false, unwrapWrote := false
      sends := [], unwraps := [] }
  receiver := 2
  phase := .alive

theorem fresh_started : Fresh 1 started where
  created := ⟨rfl, rfl, fun _ _ => rfl, rfl, rfl, rfl, rfl, rfl⟩
  other := by decide
  alive := rfl

/-- The promises, computed, in runs of the endpoints and the monitor alone. -/
def promised (s : State) : Action → Bool
  | .live (.send _) => match s.queue.sender with
    | .loadPptr r => s.queue.pptr r ≠ 0
    | _ => true
  | .live (.others _) => false
  | .live (.sentTo _) | .live .unwrap | .live (.recv _ _) => true
  | .crash | .redo | .dropRoot _ | .dropQueues | .monitor _ | .attach _ _ => true

theorem undisturbed_of_promised {s s' : State} {a : Action} (h : promised s a = true) :
    Undisturbed sender offset s a s' := by
  cases a with
  | live b =>
    cases b with
    | send weak =>
      intro r loading
      simpa [promised, show s.queue.sender = _ from loading] using h
    | others b => simp [promised] at h
    | sentTo | unwrap | recv => trivial
  | crash | redo | dropRoot | dropQueues | monitor | attach => trivial

/-- The sweep has nothing to do. -/
def Phase.swept (φ : Phase) (e : ℕ) : Bool :=
  match φ with
  | .sweep i => i = e
  | _ => true

/-- `Careful`, computed, for receivers whose redo log is empty. -/
def spared (s : State) : Action → Bool
  | .redo => s.queue.start = s.queue.end_ ∧ selectRedo s.queue.base.mem s.receiver = none
  | .monitor _ => s.phase.swept s.queue.end_
  | .live _ | .crash | .dropRoot _ | .dropQueues | .attach _ _ => true

theorem careful_of_spared {s s' : State} {a : Action} (hs : s.step sender offset a = some s')
    (h : spared s a = true) : Careful s a s' := by
  cases a with
  | live | crash | dropRoot | dropQueues | attach => trivial
  | redo =>
    simp only [spared, decide_eq_true_eq] at h
    simp only [State.step, Option.ite_none_right_eq_some, Option.some.injEq] at hs
    obtain ⟨-, rfl⟩ := hs
    refine ⟨h.1, fun i => ?_⟩
    simp only [State.setPhase, State.setMem, redoRefCnt, h.2, Queue.State.buffer]
  | monitor weak =>
    intro i sweep
    simpa [spared, Phase.swept, sweep] using h

/-- The receiver attaches, finds the queue empty and crashes; the client that attaches after its
recovery receives the message that is sent then. -/
theorem intact_after_empty : ∃ s, Reachable (State.step 1 64)
    (fun s a s' => Undisturbed 1 64 s a s' ∧ Careful s a s') started s ∧
      Quiescent s ∧ received s.queue = [8] ∧ Intact s := by
  let actions : List Action := .live .unwrap :: List.replicate 7 (.live (.recv false 1)) ++
    [.crash, .redo, .dropQueues, .monitor false, .monitor false, .monitor false, .attach 3 0,
      .live (.sentTo 0)] ++ List.replicate 15 (.live (.send false)) ++
    .live .unwrap :: List.replicate 31 (.live (.recv false 1))
  have sound : ∀ s a s', True → State.step 1 64 s a = some s' → (promised s a && spared s a) = true →
      True ∧ Undisturbed 1 64 s a s' ∧ Careful s a s' := by
    intro s a s' _ hs passed
    rw [Bool.and_eq_true] at passed
    exact ⟨trivial, undisturbed_of_promised passed.1, careful_of_spared hs passed.2⟩
  have run : (checkedRun (State.step 1 64) (fun s a _ => promised s a && spared s a) started
      actions).any
      (fun s => Quiescent s ∧ received s.queue = [8]) = true := by
    decide +kernel
  obtain ⟨s, hs, last⟩ := exists_reachable_of_checkedRun sound trivial run
  simp only [decide_eq_true_eq] at last
  exact ⟨s, hs, last.1, last.2, intact_of_careful fresh_started hs last.1⟩

/-- The receiver crashes between its calls with one message in flight.  After its recovery the slot
is empty and still counted. -/
theorem slot_lost_in_recovery : ¬ ∀ s, Reachable (State.step 1 64) (Undisturbed 1 64) started s →
    Quiescent s → Intact s := by
  intro intact
  let actions : List Action := .live .unwrap :: List.replicate 7 (.live (.recv false 1)) ++
    .live (.sentTo 0) :: List.replicate 15 (.live (.send false)) ++
    [.crash, .redo, .dropQueues] ++ List.replicate 12 (.monitor false)
  have run : (checkedRun (State.step 1 64) (fun s a _ => promised s a) started actions).any
      (fun s => Quiescent s ∧ pending s.queue = [0]) = true := by
    decide +kernel
  have sound : ∀ s a s', True → State.step 1 64 s a = some s' → promised s a = true →
      True ∧ Undisturbed 1 64 s a s' :=
    fun _ _ _ _ _ passed => ⟨trivial, undisturbed_of_promised passed⟩
  obtain ⟨s, hs, last⟩ := exists_reachable_of_checkedRun sound trivial run
  simp only [decide_eq_true_eq] at last
  exact (intact s hs last.1).1 0 (by simp [last.2]) rfl

end Crash

end CxlShm.Queue
