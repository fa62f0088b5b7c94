import CxlShm.Lib.Reachability
import CxlShm.Queue.Machine

/-!
# The sweep of a dead sender's queue

`recovery_garbage_collection` sweeps the queues of a client that has stopped as a sender, while the
receiver goes on calling `cxl_unwrap`.  The sweep visits the slots from `q->end` up to `q->start`, where
no message is, and then those from `q->start` up to `q->end` if nobody has attached as the receiver.
A step is one access to the shared memory.  The compare-exchange loops of `link_reference`,
`unlink_reference` and `recovery_unlink_reference` are one step each, their successful round.
-/

namespace CxlShm.Queue.SenderSweep

open Function Reachability

/-- The next access of `cxl_unwrap`, with the registers that are live; `pptr` is that of the `RootRef`,
which nobody else sees before the call returns. -/
inductive Recv
  | idle
  /-- `if(q->receiver_id == 0)` -/
  | loadReceiverId
  /-- `tls->receiver_queue` of `q->receiver_next = tls->receiver_queue` -/
  | loadReceiverQueue
  | storeReceiverNext (v : Offset)
  | storeReceiverQueue
  | storeReceiverId
  /-- `q->start` of `q->start == q->end` -/
  | testStart
  /-- `q->end` of `q->start == q->end` -/
  | testEnd (x : ℕ)
  /-- `q->start` of `q->buffer[q->start] == 0` -/
  | bufferStart
  /-- `q->buffer[q->start] == 0` -/
  | testBuffer (x : ℕ)
  /-- `tbr = thread_base_ref_alloc()` -/
  | alloc
  /-- `q->start` of `link_reference(tbr->pptr, q->buffer[q->start])` -/
  | linkStart
  /-- `q->buffer[q->start]` of the same -/
  | linkBuffer (x : ℕ)
  /-- the compare-exchange of `link_reference` -/
  | linkCas (o : Offset)
  /-- `_ref = _refed` of `link_reference` -/
  | linkStore (o : Offset)
  /-- `q->start` of `unlink_reference(q->buffer[q->start], q->buffer[q->start])` -/
  | unlinkStart (pptr : Offset)
  /-- `q->buffer[q->start]` of the same -/
  | unlinkBuffer (pptr : Offset) (x : ℕ)
  /-- the compare-exchange of `unlink_reference` -/
  | unlinkCas (pptr : Offset) (x : ℕ) (o : Offset)
  /-- `_ref = 0` of `unlink_reference` -/
  | unlinkStore (pptr : Offset) (x : ℕ)
  /-- `q->start` of `q->start = (q->start + 1) % MESSAGE_BUFFER_SIZE` -/
  | loadStart (pptr : Offset)
  /-- the store of `q->start` -/
  | storeStart (pptr : Offset) (x : ℕ)
  /-- the return with `tbr->pptr`, which has come out of slot `x` -/
  | loadPptr (pptr : Offset) (x : ℕ)
  deriving DecidableEq, Repr

/-- The next access of the sweep; `second` tells the `while` loop from the `do` loop before it. -/
inductive Sweep
  /-- `size_t i = q->end` -/
  | begin
  /-- `if(q->buffer[i] != 0)` -/
  | test (second : Bool) (i : ℕ)
  /-- `if(_ref == 0) return;` of `recovery_test_free` -/
  | testRef (second : Bool) (i : ℕ)
  /-- `_ref` of `refed = get_data_at_addr(start, _ref)` -/
  | loadRef (second : Bool) (i : ℕ)
  /-- `ref_cnt` of `refed` -/
  | loadCnt (second : Bool) (i : ℕ) (o : Offset)
  /-- `_ref` of `recovery_unlink_reference(_ref, _ref, offset)` -/
  | arg (second : Bool) (i : ℕ)
  /-- the compare-exchange of `recovery_unlink_reference` -/
  | cas (second : Bool) (i : ℕ) (o : Offset)
  /-- `_ref = 0` of `recovery_unlink_reference` -/
  | store (second : Bool) (i : ℕ)
  /-- `i != q->start`, or `i != q->end` in the second loop -/
  | check (second : Bool) (i : ℕ)
  /-- `if(q->receiver_id == 0)` -/
  | receiverId (i : ℕ)
  /-- `q->sender_id = 0` -/
  | senderId
  | done
  deriving DecidableEq, Repr

/-- The queue, the reference counts of the objects, and what has become of the slots: the objects whose
count was decremented for the slot by the receiver and by the sweep, and those that `cxl_unwrap` has
returned out of it. -/
structure State where
  start : ℕ
  end_ : ℕ
  senderId : ℕ
  receiverId : ℕ
  receiverNext : Offset
  receiverQueue : Offset
  buffer : ℕ → Offset
  refCnt : Offset → ℕ
  receiver : Recv
  sweep : Sweep
  byReceiver : ℕ → List Offset
  bySweep : ℕ → List Offset
  returned : ℕ → List Offset

/-- What happens next: the receiver calls `cxl_unwrap` or makes its next access, the sweep makes its
next access, or references to `o` elsewhere are made and dropped, so that its count becomes `c`. -/
inductive Action
  | unwrap
  | recv
  | sweep
  | others (o : Offset) (c : ℕ)
  deriving DecidableEq, Repr

namespace State

variable (p : Endpoints) (s : State)

/-- `ref_cnt + 1` in the 16 bits of the count. -/
def incRefCnt (o : Offset) : Offset → ℕ := update s.refCnt o ((s.refCnt o + 1) % 2 ^ 16)

/-- `ref_cnt - 1` in the 16 bits of the count. -/
def decRefCnt (o : Offset) : Offset → ℕ := update s.refCnt o ((s.refCnt o + (2 ^ 16 - 1)) % 2 ^ 16)

/-- The next access of `cxl_unwrap`. -/
def recvStep : Option State :=
  match s.receiver with
  | .idle => none
  | .loadReceiverId =>
    some { s with receiver := if s.receiverId = 0 then .loadReceiverQueue else .testStart }
  | .loadReceiverQueue => some { s with receiver := .storeReceiverNext s.receiverQueue }
  | .storeReceiverNext v => some { s with receiverNext := v, receiver := .storeReceiverQueue }
  | .storeReceiverQueue => some { s with receiverQueue := p.offset, receiver := .storeReceiverId }
  | .storeReceiverId => some { s with receiverId := p.receiver, receiver := .testStart }
  | .testStart => some { s with receiver := .testEnd s.start }
  | .testEnd x => some { s with receiver := if x = s.end_ then .idle else .bufferStart }
  | .bufferStart => some { s with receiver := .testBuffer s.start }
  | .testBuffer x => some { s with receiver := if s.buffer x = 0 then .idle else .alloc }
  | .alloc => some { s with receiver := .linkStart }
  | .linkStart => some { s with receiver := .linkBuffer s.start }
  | .linkBuffer x => some { s with receiver := .linkCas (s.buffer x) }
  | .linkCas o => some { s with refCnt := s.incRefCnt o, receiver := .linkStore o }
  | .linkStore o => some { s with receiver := .unlinkStart o }
  | .unlinkStart pptr => some { s with receiver := .unlinkBuffer pptr s.start }
  | .unlinkBuffer pptr x => some { s with receiver := .unlinkCas pptr x (s.buffer x) }
  | .unlinkCas pptr x o =>
    some { s with
      refCnt := s.decRefCnt o
      byReceiver := update s.byReceiver x (s.byReceiver x ++ [o])
      receiver := .unlinkStore pptr x }
  | .unlinkStore pptr x =>
    some { s with buffer := update s.buffer x 0, receiver := .loadStart pptr }
  | .loadStart pptr => some { s with receiver := .storeStart pptr s.start }
  | .storeStart pptr x =>
    some { s with start := (x + 1) % messageBufferSize, receiver := .loadPptr pptr x }
  | .loadPptr pptr x =>
    some { s with
      returned := update s.returned x (s.returned x ++ [pptr])
      receiver := .idle }

/-- `i = (i + 1) % MESSAGE_BUFFER_SIZE` -/
def advance (second : Bool) (i : ℕ) : State :=
  { s with sweep := .check second ((i + 1) % messageBufferSize) }

/-- The next access of the sweep.  An object whose count goes to 0 is freed, with the references that it
contains: to the queue these are references elsewhere. -/
def sweepStep : Option State :=
  match s.sweep with
  | .begin => some { s with sweep := .test false s.end_ }
  | .test second i =>
    if s.buffer i ≠ 0 then some { s with sweep := .testRef second i } else some (s.advance second i)
  | .testRef second i =>
    if s.buffer i = 0 then some (s.advance second i) else some { s with sweep := .loadRef second i }
  | .loadRef second i => some { s with sweep := .loadCnt second i (s.buffer i) }
  | .loadCnt second i o =>
    if s.refCnt o = 0 then some (s.advance second i) else some { s with sweep := .arg second i }
  | .arg second i => some { s with sweep := .cas second i (s.buffer i) }
  | .cas second i o =>
    some { s with
      refCnt := s.decRefCnt o
      bySweep := update s.bySweep i (s.bySweep i ++ [o])
      sweep := .store second i }
  | .store second i => some ({ s with buffer := update s.buffer i 0 }.advance second i)
  | .check false i =>
    some { s with sweep := if i ≠ s.start then .test false i else .receiverId i }
  | .check true i =>
    some { s with sweep := if i ≠ s.end_ then .test true i else .senderId }
  | .receiverId i =>
    some { s with sweep := if s.receiverId = 0 then .check true i else .senderId }
  | .senderId => some { s with senderId := 0, sweep := .done }
  | .done => none

/-- The step function. -/
def step (s : State) : Action → Option State
  | .unwrap => if s.receiver = .idle then some { s with receiver := .loadReceiverId } else none
  | .recv => s.recvStep p
  | .sweep => s.sweepStep
  | .others o c => some { s with refCnt := update s.refCnt o c }

end State

/-- Number of messages in flight. -/
def between (s : State) : ℕ := (s.end_ + messageBufferSize - s.start) % messageBufferSize

/-- The slot at distance `k` from `q->start`. -/
def slot (s : State) (k : ℕ) : ℕ := (s.start + k) % messageBufferSize

/-- A message is in flight in slot `i`. -/
def InFlight (s : State) (i : ℕ) : Prop := ∃ k < between s, i = slot s k

/-- Number of references to `o` that the slots hold and the count includes. -/
def pending (s : State) (o : Offset) : ℕ :=
  ((Finset.range messageBufferSize).filter fun i =>
    s.buffer i = o ∧ s.byReceiver i = [] ∧ s.bySweep i = []).card

/-- A queue whose sender has stopped, before the sweep.  Only the slots of messages in flight are used,
and possibly the next one, for a message that the sender did not get to announce. -/
structure Start (p : Endpoints) (s : State) : Prop where
  receiver : s.receiver = .idle
  sweep : s.sweep = .begin
  id : 0 < p.receiver
  start : s.start < messageBufferSize
  end_ : s.end_ < messageBufferSize
  full : ∀ k < between s, s.buffer (slot s k) ≠ 0
  empty : ∀ k < messageBufferSize, between s < k → s.buffer (slot s k) = 0
  counted : ∀ o ≠ 0, pending s o ≤ s.refCnt o ∧ s.refCnt o < 2 ^ 16
  byReceiver : ∀ i, s.byReceiver i = []
  bySweep : ∀ i, s.bySweep i = []
  returned : ∀ i, s.returned i = []

/-- The receiver has found a message in the slot at `q->start` and has yet to clear it. -/
def Recv.Holds : Recv → Prop
  | .alloc | .linkStart | .linkBuffer _ | .linkCas _ | .linkStore _ | .unlinkStart _
  | .unlinkBuffer .. | .unlinkCas .. | .unlinkStore .. => True
  | _ => False

/-- The slot in which the sweep has found a message that it has yet to clear. -/
def Sweep.holds : Sweep → Option (Bool × ℕ)
  | .testRef second i | .loadRef second i | .loadCnt second i _ | .arg second i | .cas second i _
  | .store second i => some (second, i)
  | _ => none

/-- In its second loop the sweep does not find the message that the receiver is taking, and the receiver
does not find the one that the sweep is dropping.  Counts are those of a sound heap: the references of
the slots are counted, and 16 bits suffice. -/
structure Apart (s : State) (a : Action) (_ : State) : Prop where
  sweep : ∀ i, a = .sweep → s.sweep = .test true i → s.buffer i ≠ 0 → s.receiver.Holds → s.start ≠ i
  recv : ∀ i, a = .recv → s.receiver = .testBuffer i → s.buffer i ≠ 0 → s.sweep.holds ≠ some (true, i)
  link : ∀ o, a = .recv → s.receiver = .linkCas o → s.refCnt o + 1 < 2 ^ 16
  others : ∀ o c, a = .others o c → pending s o ≤ c ∧ c < 2 ^ 16

end CxlShm.Queue.SenderSweep
