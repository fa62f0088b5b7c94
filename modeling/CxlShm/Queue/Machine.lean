import CxlShm.Reference.Machine
import Mathlib.Data.Finset.Card
import Mathlib.Data.Finset.Range

/-!
# Message passing, one memory access at a time

A queue made by `create_msg_queue` has one sender and one receiver.  This file is the step function
of their `sent_to` and `cxl_unwrap` calls over the machine of `Reference.Machine`, whose locations
are the slots of the queue and the `RootRef`s.  A step is one access to the shared memory; a call
returns with its last access.  All other activity, of other clients and of the two endpoints
between their calls, is a step of the machine below (`Action.others`).
-/

namespace CxlShm

/-- The locations: `q->buffer[i]`, and `pptr` of a `RootRef`. -/
inductive QueueLoc
  | slot (i : ℕ)
  | root (k : ℕ)
  deriving DecidableEq, Repr

namespace Queue

/-- The two endpoints, by thread id, and the offset of the queue. -/
structure Endpoints where
  sender : ℕ
  receiver : ℕ
  offset : Offset

/-- The next access of `sent_to`, with the registers that are live. -/
inductive SendTo
  | idle
  /-- `offset = ref.get_tbr()->pptr` -/
  | loadPptr (ref : ℕ)
  /-- `q->end` of `q->end + 1 == q->start` -/
  | testEnd (offset : Offset)
  /-- `q->start` of `q->end + 1 == q->start` -/
  | testStart (offset : Offset) (e : ℕ)
  /-- `q->end` of `q->end - q->start == MESSAGE_BUFFER_SIZE - 1` -/
  | lapEnd (offset : Offset)
  /-- `q->start` of `q->end - q->start == MESSAGE_BUFFER_SIZE - 1` -/
  | lapStart (offset : Offset) (e : ℕ)
  /-- `q->end` of `link_reference(q->buffer[q->end], offset)` -/
  | slotEnd (offset : Offset)
  /-- inside `link_reference` -/
  | link (offset : Offset)
  /-- `q->end` of `q->end = (q->end + 1) % MESSAGE_BUFFER_SIZE` -/
  | loadEnd (offset : Offset)
  /-- the store of `q->end` -/
  | storeEnd (offset : Offset) (e : ℕ)
  | returned (offset : Offset) (ok : Bool)
  deriving DecidableEq, Repr

/-- The next access of `cxl_unwrap`, with the registers that are live. -/
inductive Unwrap
  | idle
  /-- `if(q->receiver_id == 0)` -/
  | loadReceiverId
  /-- `tls->receiver_queue` of `q->receiver_next = tls->receiver_queue` -/
  | loadReceiverQueue
  | storeReceiverNext (v : Offset)
  | storeReceiverQueue
  | storeReceiverId
  /-- `q->start` of `q->start == q->end` -/
  | testStart
  /-- `q->end` of `q->start == q->end` -/
  | testEnd (s : ℕ)
  /-- `q->start` of `q->buffer[q->start] == 0` -/
  | bufferStart
  /-- `q->buffer[q->start] == 0` -/
  | testBuffer (s : ℕ)
  /-- `tbr = thread_base_ref_alloc()` -/
  | alloc
  /-- `q->start` of `link_reference(tbr->pptr, q->buffer[q->start])` -/
  | linkStart (tbr : ℕ)
  /-- `q->buffer[q->start]` of the same -/
  | linkBuffer (tbr s : ℕ)
  /-- inside `link_reference` -/
  | link (tbr : ℕ)
  /-- `q->start` of `unlink_reference(q->buffer[q->start], q->buffer[q->start])` -/
  | unlinkStart (tbr : ℕ)
  /-- `q->buffer[q->start]` of the same -/
  | unlinkBuffer (tbr s : ℕ)
  /-- inside `unlink_reference` -/
  | unlink (tbr : ℕ)
  /-- `q->start` of `q->start = (q->start + 1) % MESSAGE_BUFFER_SIZE` -/
  | loadStart (tbr : ℕ)
  /-- the store of `q->start` -/
  | storeStart (tbr s : ℕ)
  /-- `tbr->pptr` of the returned `CXLRef` -/
  | loadPptr (tbr : ℕ)
  | returned (result : Option Offset)
  deriving DecidableEq, Repr

/-- A `sent_to` call that has returned: the object, the result, and whether the call changed a slot
or an index. -/
structure SendRecord where
  offset : Offset
  ok : Bool
  wrote : Bool
  deriving DecidableEq, Repr

/-- A `cxl_unwrap` call that has returned: the object in the returned `RootRef`, `none` for the null
`CXLRef`, and whether the call changed a slot or an index. -/
structure UnwrapRecord where
  result : Option Offset
  wrote : Bool
  deriving DecidableEq, Repr

/-- The queue over the machine below.  `receiverQueue` is the head of the receiver's list of queues,
`sendWrote` and `unwrapWrote` what the calls under way have done, and `sends` and `unwraps` the
calls that have returned. -/
structure State where
  base : CxlShm.State QueueLoc
  start : ℕ
  end_ : ℕ
  receiverId : ℕ
  receiverNext : Offset
  receiverQueue : Offset
  sender : SendTo
  receiver : Unwrap
  sendWrote : Bool
  unwrapWrote : Bool
  sends : List SendRecord
  unwraps : List UnwrapRecord

/-- What happens next.  `sentTo r` and `unwrap` are calls; `send` and `recv` are the next access of
the endpoints, where `weak` is the choice of a compare-exchange and `tbr` the `RootRef` that the
allocator hands out. -/
inductive Action
  | sentTo (r : ℕ)
  | unwrap
  | send (weak : Bool)
  | recv (weak : Bool) (tbr : ℕ)
  | others (a : CxlShm.Action QueueLoc)

namespace State

variable (p : Endpoints)

/-- `q->buffer[i]`. -/
def buffer (s : State) (i : ℕ) : Offset := s.base.mem.loc (.slot i)

/-- `tbr->pptr`. -/
def pptr (s : State) (k : ℕ) : Offset := s.base.mem.loc (.root k)

/-- The two states differ in a slot or an index. -/
def touched (s s' : State) : Bool :=
  s.start ≠ s'.start ∨ s.end_ ≠ s'.end_ ∨ ∃ i < messageBufferSize, s.buffer i ≠ s'.buffer i

/-- The next access of `sent_to`. -/
def sendStep (s : State) (weak : Bool) : Option State :=
  match s.sender with
  | .idle | .returned _ _ => none
  | .loadPptr r => some { s with sender := .testEnd (s.pptr r) }
  | .testEnd o => some { s with sender := .testStart o s.end_ }
  | .testStart o e =>
    some { s with sender := if (e + 1) % 2 ^ 64 = s.start then .returned o false else .lapEnd o }
  | .lapEnd o => some { s with sender := .lapStart o s.end_ }
  | .lapStart o e =>
    some { s with
      sender := if (e + (2 ^ 64 - s.start)) % 2 ^ 64 = messageBufferSize - 1 then .returned o false
        else .slotEnd o }
  | .slotEnd o =>
    (s.base.step (.link p.sender (.slot s.end_) o)).map fun b => { s with base := b, sender := .link o }
  | .link o =>
    (s.base.step (.run p.sender weak)).map fun b =>
      { s with base := b, sender := if b.ctl p.sender = .idle then .loadEnd o else .link o }
  | .loadEnd o => some { s with sender := .storeEnd o s.end_ }
  | .storeEnd o e =>
    some { s with end_ := (e + 1) % messageBufferSize, sender := .returned o true }

/-- The next access of `cxl_unwrap`. -/
def recvStep (s : State) (weak : Bool) (tbr : ℕ) : Option State :=
  match s.receiver with
  | .idle | .returned _ => none
  | .loadReceiverId =>
    some { s with receiver := if s.receiverId = 0 then .loadReceiverQueue else .testStart }
  | .loadReceiverQueue => some { s with receiver := .storeReceiverNext s.receiverQueue }
  | .storeReceiverNext v => some { s with receiverNext := v, receiver := .storeReceiverQueue }
  | .storeReceiverQueue => some { s with receiverQueue := p.offset, receiver := .storeReceiverId }
  | .storeReceiverId => some { s with receiverId := p.receiver, receiver := .testStart }
  | .testStart => some { s with receiver := .testEnd s.start }
  | .testEnd i => some { s with receiver := if i = s.end_ then .returned none else .bufferStart }
  | .bufferStart => some { s with receiver := .testBuffer s.start }
  | .testBuffer i => some { s with receiver := if s.buffer i = 0 then .returned none else .alloc }
  | .alloc =>
    some { s with
      base := { s.base with mem := s.base.mem.setLoc (.root tbr) 0 }, receiver := .linkStart tbr }
  | .linkStart k => some { s with receiver := .linkBuffer k s.start }
  | .linkBuffer k i =>
    (s.base.step (.link p.receiver (.root k) (s.buffer i))).map fun b =>
      { s with base := b, receiver := .link k }
  | .link k =>
    (s.base.step (.run p.receiver weak)).map fun b =>
      { s with base := b, receiver := if b.ctl p.receiver = .idle then .unlinkStart k else .link k }
  | .unlinkStart k => some { s with receiver := .unlinkBuffer k s.start }
  | .unlinkBuffer k i =>
    (s.base.step (.unlink p.receiver (.slot i) (s.buffer i))).map fun b =>
      { s with base := b, receiver := .unlink k }
  | .unlink k =>
    (s.base.step (.run p.receiver weak)).map fun b =>
      { s with base := b, receiver := if b.ctl p.receiver = .idle then .loadStart k else .unlink k }
  | .loadStart k => some { s with receiver := .storeStart k s.start }
  | .storeStart k i =>
    some { s with start := (i + 1) % messageBufferSize, receiver := .loadPptr k }
  | .loadPptr k => some { s with receiver := .returned (some (s.pptr k)) }

/-- Books an access of the sender from `s`, and the call when it returns. -/
def noteSend (s s' : State) : State :=
  let wrote := s.sendWrote || s.touched s'
  match s'.sender with
  | .returned o ok => { s' with sender := .idle, sends := s'.sends ++ [⟨o, ok, wrote⟩] }
  | _ => { s' with sendWrote := wrote }

/-- Books an access of the receiver from `s`, and the call when it returns. -/
def noteRecv (s s' : State) : State :=
  let wrote := s.unwrapWrote || s.touched s'
  match s'.receiver with
  | .returned r => { s' with receiver := .idle, unwraps := s'.unwraps ++ [⟨r, wrote⟩] }
  | _ => { s' with unwrapWrote := wrote }

/-- The step function. -/
def step (s : State) : Action → Option State
  | .sentTo r =>
    if s.sender = .idle ∧ s.base.ctl p.sender = .idle then
      some { s with sender := .loadPptr r, sendWrote := false }
    else none
  | .unwrap =>
    if s.receiver = .idle ∧ s.base.ctl p.receiver = .idle then
      some { s with receiver := .loadReceiverId, unwrapWrote := false }
    else none
  | .send weak => (s.sendStep p weak).map (s.noteSend ·)
  | .recv weak tbr => (s.recvStep p weak tbr).map (s.noteRecv ·)
  | .others a => (s.base.step a).map fun b => { s with base := b }

end State

/-- A queue after `create_msg_queue`: no receiver yet, indices and slots zero. -/
structure Created (s : State) : Prop where
  start : s.start = 0
  end_ : s.end_ = 0
  buffer : ∀ i < messageBufferSize, s.buffer i = 0
  receiverId : s.receiverId = 0
  sender : s.sender = .idle
  receiver : s.receiver = .idle
  sends : s.sends = []
  unwraps : s.unwraps = []

/-- The objects of the `sent_to` calls that returned true, in order. -/
def sent (s : State) : List Offset := (s.sends.filter (·.ok)).map (·.offset)

/-- The objects in the `RootRef`s that `cxl_unwrap` has returned, in order. -/
def received (s : State) : List Offset := s.unwraps.filterMap (·.result)

/-- The messages in flight: slots that hold an object. -/
def inFlight (s : State) : ℕ :=
  ((Finset.range messageBufferSize).filter fun i => s.buffer i ≠ 0).card

end Queue

end CxlShm
