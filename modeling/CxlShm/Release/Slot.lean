import CxlShm.Lib.Fuel
import CxlShm.Release.Agreement

/-!
# Everything that a slot refers to

`recovery_garbage_collection` drops the references of a client that has stopped, those in its
`RootRef`s and those in the message queues that it was an end of, and `normal_garbage_collection`
those of a client that exits.  This file is that part of the two functions, over the objects, the
allocator and the queues, when nobody interferes.  What they do with the pages of objects and the
segments comes behind it and looks at counts only.
-/

namespace CxlShm.Cascade

open Function Fuel Linked

/-- `cxl_message_queue_t` without its buffer. -/
structure MessageQueue where
  start : ℕ
  end_ : ℕ
  senderId : ℕ
  receiverId : ℕ
  senderNext : Offset
  receiverNext : Offset

/-- The location `q->buffer[i]`. -/
def bufferSlot (q : Offset) (i : ℕ) : ObjLoc := .root (q + 40 + 8 * i)

/-- The objects and the allocator, `in_use` of each `RootRef`, the message queues, and
`tls->sender_queue` and `tls->receiver_queue` of each slot. -/
structure Site where
  world : World
  inUse : Offset → Bool
  queue : Offset → MessageQueue
  senderQueue : ℕ → Offset
  receiverQueue : ℕ → Offset

namespace Site

variable (t : ℕ) (s : Site)

def loc (r : ObjLoc) : Offset := s.world.heap.mem.loc r

def alloc : CxlShm.Heap.State := s.world.area.alloc

/-- `recovery_test_free` -/
def recoveryTestFree (fuel : ℕ) (r : ObjLoc) : Option Site :=
  (s.world.recoveryTestFree t fuel r).map fun w => { s with world := w }

/-- `tbr->in_use = 0` and `recovery_cxl_free(true, tbr)` -/
def recoveryFreeRoot (b : Offset) : Site :=
  { s with
    world.heap.mem := s.world.heap.mem.setLoc (.root b) 0
    world.area.alloc := s.alloc.recoveryCxlFree t true b
    world.area.pushed := s.world.area.pushed ++ s.alloc.recoveryCxlFreePush t b
    inUse := update s.inUse b false }

/-- The round for block `b` of the loop over the blocks of a page, which lie between `start` and
`last`. -/
def recoveryRoot (start last : Offset) (fuel : ℕ) (s : Site) (b : Offset) : Option Site :=
  if s.inUse b then
    let pptr := s.loc (.root b)
    (if pptr ≠ 0 ∧ pptr ≠ s.alloc.free (cxlPtrPage pptr) ∧ ¬ (start ≤ pptr ∧ pptr ≤ last) then
      s.recoveryTestFree t fuel (.root b)
    else some s).map fun s => s.recoveryFreeRoot t b
  else some s

/-- The round of the loop for a page of `RootRef`s. -/
def recoveryRootPage (fuel : ℕ) (s : Site) (page : ℕ) : Option Site :=
  let bs := s.alloc.blockSize page
  let start := cxlPageStart page
  let last := start + (pageSize / bs - 1) * bs
  ((CxlShm.Heap.blocksFrom bs (pageSize / bs) start).foldlM (recoveryRoot t start last fuel) s).map
    fun s => { s with world.area.alloc := s.alloc.clearPage page }

/-- `q->sender_id = 0`, and the segment of the queue is marked `ABANDON`. -/
def leaveSender (q : Offset) : Site :=
  let g := segmentIndex q
  { s with
    queue := update s.queue q { s.queue q with senderId := 0 }
    world.area.alloc.info := update s.alloc.info g ⟨.abandon, (s.alloc.info g).threadFree⟩ }

/-- `q->receiver_id = 0` -/
def leaveReceiver (q : Offset) : Site :=
  { s with queue := update s.queue q { s.queue q with receiverId := 0 } }

/-! Both collections drop what is in the queues in the same way, each with its own `test_free`. -/

section

variable (testFree : ℕ → Site → ObjLoc → Option Site) (fuel : ℕ) (q : Offset)

/-- The round of the loops for slot `i` of a queue. -/
def dropSlot (s : Site) (i : ℕ) : Option Site :=
  if s.loc (bufferSlot q i) ≠ 0 then testFree fuel s (bufferSlot q i) else some s

/-- The round of the loop for a queue that the client sends on. -/
def dropSender (s : Site) : Option Site :=
  let m := s.queue q
  (doRing messageBufferSize m.start (dropSlot testFree fuel q) fuel m.end_ s).bind fun s =>
    (if m.receiverId = 0 then
      whileRing messageBufferSize m.end_ (dropSlot testFree fuel q) fuel m.start s
    else some s).map fun s => s.leaveSender q

/-- The round of the loop for a queue that the client receives from. -/
def dropReceiver (s : Site) : Option Site :=
  let m := s.queue q
  (whileRing messageBufferSize m.end_ (dropSlot testFree fuel q) fuel m.start s).map fun s =>
    s.leaveReceiver q

/-- The loops over the queues of the client. -/
def dropQueues (s : Site) : Option Site :=
  (walk (fun s q => (s.queue q).senderNext) 0 (fun s q => dropSender testFree fuel q s) fuel
    (s.senderQueue t) s).bind fun s =>
  walk (fun s q => (s.queue q).receiverNext) 0 (fun s q => dropReceiver testFree fuel q s) fuel
    (s.receiverQueue t) s

end

/-- `recovery_garbage_collection` up to the pages of objects, with a bound on all loops. -/
def recoveryReferences (fuel : ℕ) : Option Site :=
  (walk (fun s page => s.alloc.next page) 0 (recoveryRootPage t fuel) fuel (s.alloc.first (t, 0))
    s).bind (dropQueues t (fun fuel s => s.recoveryTestFree t fuel) fuel)

/-- `test_free` -/
def testFree (fuel : ℕ) (r : ObjLoc) : Option Site :=
  (s.world.testFree t fuel r).map fun w => { s with world := w }

/-- `tbr->in_use = 0` and `cxl_free(true, tbr)`; the location is null from then on, and what the
allocator keeps in the block is its own. -/
def freeRoot (b : Offset) : Option Site :=
  (s.alloc.cxlFree t true b).map fun alloc =>
    { s with
      world.heap.mem := s.world.heap.mem.setLoc (.root b) 0
      world.area := ⟨alloc, s.world.area.pushed ++ s.alloc.cxlFreePush t b⟩
      inUse := update s.inUse b false }

/-- The loop of `normal_garbage_collection` over the blocks of a page, from `block` on, with a bound
on its rounds; the record of the page is read anew in each round. -/
def normalRoots (page last : Offset) (fuel : ℕ) : ℕ → Offset → Site → Option Site
  | 0, _, _ => none
  | n + 1, block, s =>
    if block ≤ last then
      let next := block + s.alloc.blockSize page
      if s.inUse block then
        (s.testFree t fuel (.root block)).bind fun s =>
          (s.freeRoot t block).bind fun s' =>
            if s.alloc.used page = 1 then some s' else normalRoots page last fuel n next s'
      else normalRoots page last fuel n next s
    else some s

/-- The round of the loop of `normal_garbage_collection` for a page of `RootRef`s. -/
def normalRootPage (fuel : ℕ) (s : Site) (page : ℕ) : Option Site :=
  let bs := s.alloc.blockSize page
  let start := cxlPageStart page
  normalRoots t page (start + (pageSize / bs - 1) * bs) fuel fuel start s

/-- `normal_garbage_collection` up to the pages of objects, with a bound on all loops. -/
def normalReferences (fuel : ℕ) : Option Site :=
  (walk (fun s page => s.alloc.next page) 0 (normalRootPage t fuel) fuel (s.alloc.first (t, 0))
    s).bind (dropQueues t (fun fuel s => s.testFree t fuel) fuel)

end Site

/-! ## What the collection is to do -/

/-- Slot `i` of the queue holds a message that the receiver has not yet taken. -/
def MessageQueue.InFlight (m : MessageQueue) (i : ℕ) : Prop :=
  (i + messageBufferSize - m.start) % messageBufferSize <
    (m.end_ + messageBufferSize - m.start) % messageBufferSize

namespace Site

/-- The references in the `RootRef`s that are in use, among the blocks `roots`. -/
def heldBy (s : Site) (roots : Set Offset) : Set ObjLoc :=
  {r | ∃ b ∈ roots, s.inUse b = true ∧ r = .root b}

/-- What a client that is gone as a sender leaves in a queue, unless the receiver will take it. -/
def leftBySender (s : Site) (q : Offset) : Set ObjLoc :=
  {r | ∃ i < messageBufferSize, ((s.queue q).receiverId = 0 ∨ ¬ (s.queue q).InFlight i) ∧
    r = bufferSlot q i}

/-- What a client that is gone as a receiver leaves in a queue. -/
def leftByReceiver (s : Site) (q : Offset) : Set ObjLoc :=
  {r | ∃ i < messageBufferSize, (s.queue q).InFlight i ∧ r = bufferSlot q i}

end Site

/-- The `RootRef`s in the pages. -/
def rootRefs (pages : List Offset) : Set Offset := {b | ∃ page ∈ pages, CxlShm.Heap.InPage page 0 b}

/-- A client's pages of `RootRef`s, the queues that it sends on and those that it receives from. -/
structure Belongings where
  pages : List Offset
  senders : List Offset
  receivers : List Offset

/-- The references that belong to the client. -/
def Site.references (s : Site) (c : Belongings) : Set ObjLoc :=
  s.heldBy (rootRefs c.pages) ∪
    ({r | ∃ q ∈ c.senders, r ∈ s.leftBySender q} ∪ {r | ∃ q ∈ c.receivers, r ∈ s.leftByReceiver q})

/-- Client `t` has stopped, at a point where all counts are right.  It may have been about to give
the first free block of a page to a `RootRef`. -/
structure Stopped (t : ℕ) (s : Site) (live : Finset Offset) (roots : Set ObjLoc) (c : Belongings) :
    Prop where
  exact : Exact s.world.heap live roots
  alloc : CxlShm.Heap.Inv s.alloc.unmarked
  objects : ∀ o ∈ live, s.alloc.allocated o = some false
  pages : Chain s.alloc.next 0 (s.alloc.first (t, 0)) c.pages
  senders : Chain (fun q => (s.queue q).senderNext) 0 (s.senderQueue t) c.senders
  receivers : Chain (fun q => (s.queue q).receiverNext) 0 (s.receiverQueue t) c.receivers
  held : ∀ b ∈ rootRefs c.pages, s.inUse b = true → .root b ∈ roots ∨
    s.loc (.root b) = s.alloc.free (cxlPtrPage (s.loc (.root b))) ∧
      cxlPtrPage (s.loc (.root b)) ∉ c.pages
  buffers : ∀ q ∈ c.senders ++ c.receivers, ∀ i < messageBufferSize, bufferSlot q i ∈ roots
  indices : ∀ q ∈ c.senders ++ c.receivers,
    (s.queue q).start < messageBufferSize ∧ (s.queue q).end_ < messageBufferSize

/-- The references of the client are dropped, the objects `live'` are left, and all else is as it
was. -/
structure Collected (t : ℕ) (s s' : Site) (live live' : Finset Offset) (roots : Set ObjLoc)
    (c : Belongings) : Prop where
  exact : Exact s'.world.heap live' roots
  shrinks : live' ⊆ live
  dropped : ∀ r ∈ s.references c, s'.loc r = 0
  kept : ∀ r ∈ roots, r ∉ s.references c → s'.loc r = s.loc r
  inside : ∀ o ∈ live', s'.world.heap.embeddedRefCnt o = s.world.heap.embeddedRefCnt o ∧
    ∀ i, s'.loc (.embedded o i) = s.loc (.embedded o i)
  /-- Each other object is freed once, and pushed once if it is in another client's segment. -/
  freed : ∃ l, s'.world.heap.freed = s.world.heap.freed ++ l ∧ l.Nodup ∧
    (∀ o, o ∈ l ↔ o ∈ live ∧ o ∉ live') ∧
    s'.world.area.pushed = s.world.area.pushed ++ l.flatMap (s.alloc.recoveryCxlFreePush t)
  inUse : ∀ b, s'.inUse b = true ↔ s.inUse b = true ∧ b ∉ rootRefs c.pages
  queue : ∀ q, s'.queue q = { s.queue q with
    senderId := if q ∈ c.senders then 0 else (s.queue q).senderId
    receiverId := if q ∈ c.receivers then 0 else (s.queue q).receiverId }

end CxlShm.Cascade
