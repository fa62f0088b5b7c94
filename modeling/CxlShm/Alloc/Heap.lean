import CxlShm.Alloc.Addresses
import CxlShm.Lib.Reachability
import Mathlib.Algebra.Group.Nat.Defs
import Mathlib.Logic.Function.Basic

/-!
# The allocator

Blocks, pages and segments of all clients.  A step is a piece of a call with at most one access to
what other clients can change, the words of a segment allocation state; the accesses between two of
these are to what the client owns.
-/

namespace CxlShm.Heap

/-- `CXL_BIN_SIZE` -/
def cxlBinSize : ℕ := 66

/-- `tls->free_page`, which lies behind `tls->pages`: the queues of a client are numbered from 0. -/
def freePage : ℕ := cxlBinSize

/-- `sizeof(RootRef)` -/
def sizeofRootRef : ℕ := 16

/-- `sizeof(cxl_message_queue_t)` -/
def sizeofMessageQueue : ℕ := 192

/-- What a client allocates a block for. -/
inductive Kind
  | rootRef
  | msgQueue
  | obj (dataSize : ℕ)
  deriving DecidableEq, Repr

/-- The flag that goes with a block from its allocation to its `cxl_free`. -/
def Kind.special : Kind → Bool
  | .rootRef | .msgQueue => true
  | .obj _ => false

/-- The bytes that the block is for. -/
def Kind.bytes : Kind → ℕ
  | .rootRef => sizeofRootRef
  | .msgQueue => sizeofMessageQueue
  | .obj dataSize => dataSize + sizeofCXLObj

/-- `block_size`, which is computed in 64 bits -/
def Kind.size (kind : Kind) : ℕ := kind.bytes % 2 ^ 64

/-- `cxl_page_queue`, the number of the queue; `size-1` is computed in 64 bits. -/
def cxlPageQueue (special : Bool) (size : ℕ) : ℕ :=
  if special ∧ size = sizeofRootRef then 0
  else if special ∧ size = sizeofMessageQueue then 1
  else (size + (2 ^ 64 - 1)) % 2 ^ 64 / 16 + 2

/-- The `block_size` that `thread_init` gives queue `i`. -/
def initBlockSize (i : ℕ) : ℕ :=
  if i = 0 then 16
  else if i = 1 then 16 * ((sizeofMessageQueue - 1) / 16) + 16
  else if i < cxlBinSize then 16 * (i - 1)
  else 0

/-- Where a client is: between calls, or in `cxl_page_queue_find_free_ex` before it looks at
`page`; with `page = 0` before `cxl_page_fresh`. -/
inductive Call
  | idle
  | find (kind : Kind) (page : ℕ)
  deriving DecidableEq, Repr

/-- The shared memory as far as the allocator reads it: the segment allocation states and the
segment headers (by number), the page records and the first word of blocks (by offset), the page
queues of the clients, and which slots and blocks are taken. -/
structure State where
  sasThreadId : ℕ → ℕ
  info : ℕ → StateFreeInfo
  segmentThreadId : ℕ → ℕ
  segmentUsed : ℕ → ℕ
  free : ℕ → ℕ
  localFree : ℕ → ℕ
  blockSize : ℕ → ℕ
  used : ℕ → ℕ
  next : ℕ → ℕ
  prev : ℕ → ℕ
  blockNext : ℕ → ℕ
  first : ℕ × ℕ → ℕ
  last : ℕ × ℕ → ℕ
  queueBlockSize : ℕ × ℕ → ℕ
  registered : ℕ → Bool
  call : ℕ → Call
  allocated : ℕ → Option Bool

/-- The area as it is mapped: all bytes are 0. -/
def State.init : State where
  sasThreadId _ := 0
  info _ := ⟨.normal, 0⟩
  segmentThreadId _ := 0
  segmentUsed _ := 0
  free _ := 0
  localFree _ := 0
  blockSize _ := 0
  used _ := 0
  next _ := 0
  prev _ := 0
  blockNext _ := 0
  first _ := 0
  last _ := 0
  queueBlockSize _ := 0
  registered _ := false
  call _ := .idle
  allocated _ := none

/-- `x++` of a `uint32_t` -/
def inc32 (x : ℕ) : ℕ := (x + 1) % 2 ^ 32

/-- `x--` of a `uint32_t` -/
def dec32 (x : ℕ) : ℕ := (x + (2 ^ 32 - 1)) % 2 ^ 32

/-- `memset(b, 0, n)` -/
def memset (m : ℕ → ℕ) (b n : ℕ) : ℕ → ℕ := fun a => if b ≤ a ∧ a < b + n then 0 else m a

namespace State

open Function

variable (s : State)

/-! ## Page queues -/

/-- `cxl_page_queue_push` -/
def cxlPageQueuePush (q : ℕ × ℕ) (page : ℕ) : State :=
  { s with
    next := update s.next page (s.first q)
    prev :=
      if s.first q = 0 then update s.prev page 0
      else update (update s.prev page 0) (s.first q) page
    first := update s.first q page
    last := if s.first q = 0 then update s.last q page else s.last }

/-- `cxl_page_queue_remove` -/
def cxlPageQueueRemove (q : ℕ × ℕ) (page : ℕ) : State :=
  { s with
    next := update
      (if s.prev page = 0 then s.next else update s.next (s.prev page) (s.next page)) page 0
    prev := update
      (if s.next page = 0 then s.prev else update s.prev (s.next page) (s.prev page)) page 0
    last := if page = s.last q then update s.last q (s.prev page) else s.last
    first := if page = s.first q then update s.first q (s.next page) else s.first }

/-! ## Segments -/

/-- The loop of `cxl_segment_alloc`, from page `n` of segment `g` down to page 1. -/
def pushPages (q : ℕ × ℕ) (g : ℕ) : ℕ → State → State
  | 0, s => s
  | n + 1, s => pushPages q g n (s.cxlPageQueuePush q (metaPage (segmentAt g) (n + 1)))

/-- The loop of `cxl_segment_free`, from page 1 of segment `g` up to page `n`. -/
def removePages (q : ℕ × ℕ) (g : ℕ) : ℕ → State → State
  | 0, s => s
  | n + 1, s => (removePages q g n s).cxlPageQueueRemove q (metaPage (segmentAt g) (n + 1))

/-- `cxl_segment_alloc`, where the weak compare-exchange succeeds on segment `g`; those before it
fail because the segment is taken or spuriously. -/
def cxlSegmentAlloc (size t g : ℕ) : Option State :=
  if segmentsAreaStart + (g + 1) * segmentSize ≤ size ∧ s.sasThreadId g = 0 then
    some (pushPages (t, freePage) g (pagesPerSegment - 1)
      { s with
        sasThreadId := update s.sasThreadId g t
        info := update s.info g ⟨.normal, 0⟩
        segmentThreadId := update s.segmentThreadId g (t % 2 ^ 16)
        segmentUsed := update s.segmentUsed g 0 })
  else none

/-- `memset(segment, 0, sizeof(cxl_segment_t))` -/
def clearSegment (g : ℕ) : State :=
  { s with
    segmentThreadId := update s.segmentThreadId g 0
    segmentUsed := update s.segmentUsed g 0
    free := memset s.free (segmentAt g) sizeofSegment
    localFree := memset s.localFree (segmentAt g) sizeofSegment
    blockSize := memset s.blockSize (segmentAt g) sizeofSegment
    used := memset s.used (segmentAt g) sizeofSegment
    next := memset s.next (segmentAt g) sizeofSegment
    prev := memset s.prev (segmentAt g) sizeofSegment }

/-- `cxl_segment_free`; its last loop does not end unless the segment is the client's. -/
def cxlSegmentFree (t g : ℕ) : Option State :=
  let s := (removePages (t, freePage) g (pagesPerSegment - 1) s).clearSegment g
  if s.sasThreadId g = t then some { s with sasThreadId := update s.sasThreadId g 0 } else none

/-- `segment->used++` -/
def incSegmentUsed (g : ℕ) : State :=
  { s with segmentUsed := update s.segmentUsed g (inc32 (s.segmentUsed g)) }

/-- `segment->used--` -/
def decSegmentUsed (g : ℕ) : State :=
  { s with segmentUsed := update s.segmentUsed g (dec32 (s.segmentUsed g)) }

/-- The part of `cxl_segment_page_alloc` after a free page has been found. -/
def takeFreePage (t : ℕ) : State × ℕ :=
  let page := s.first (t, freePage)
  ((s.cxlPageQueueRemove (t, freePage) page).incSegmentUsed (segmentIndex page), page)

/-- `cxl_segment_page_alloc` -/
def cxlSegmentPageAlloc (size t g : ℕ) : Option (State × ℕ) :=
  if s.first (t, freePage) = 0 then (s.cxlSegmentAlloc size t g).map fun s => s.takeFreePage t
  else some (s.takeFreePage t)

/-! ## Pages -/

/-- The loop of `cxl_page_init` over the `n` blocks before the last one: each is cleared (`header`
bytes of it) and linked to the next one. -/
def linkBlocks (bs header : ℕ) : ℕ → ℕ → (ℕ → ℕ) → ℕ → ℕ
  | 0, _, m => m
  | n + 1, block, m =>
    linkBlocks bs header n (block + bs) (update (memset m block header) block (block + bs))

/-- `cxl_page_init` -/
def cxlPageInit (special : Bool) (page bs : ℕ) : State :=
  let start := cxlPageStart page
  let n := pageSize / bs - 1
  { s with
    localFree := update s.localFree page 0
    blockSize := update s.blockSize page (bs % 2 ^ 32)
    used := update s.used page 0
    next := update s.next page 0
    prev := update s.prev page 0
    blockNext := update (linkBlocks bs (if special then 8 else sizeofCXLObj) n start s.blockNext)
      (start + n * bs) (s.free page)
    free := update s.free page start }

/-- `cxl_page_fresh`; without a block size the division of `cxl_page_init` faults. -/
def cxlPageFresh (size : ℕ) (q : ℕ × ℕ) (g : ℕ) : Option (State × ℕ) :=
  (s.cxlSegmentPageAlloc size q.1 g).bind fun (s, page) =>
    if s.queueBlockSize q = 0 then none
    else some
      ((s.cxlPageInit (q.2 < 2) page (s.queueBlockSize q)).cxlPageQueuePush q page, page)

/-- `memset(page, 0, sizeof(cxl_page_t))` -/
def clearPage (page : ℕ) : State :=
  { s with
    free := update s.free page 0
    localFree := update s.localFree page 0
    blockSize := update s.blockSize page 0
    used := update s.used page 0
    next := update s.next page 0
    prev := update s.prev page 0 }

/-- `cxl_page_free` by client `t`. -/
def cxlPageFree (t page : ℕ) (q : ℕ × ℕ) : Option State :=
  let g := segmentIndex page
  let s := (((s.cxlPageQueueRemove q page).clearPage page).cxlPageQueuePush (t, freePage)
    page).decSegmentUsed g
  if s.segmentUsed g = 0 then s.cxlSegmentFree t g else some s

/-- The loop of `cxl_thread_free_collect`, which ends after `n` rounds. -/
def collectBlocks : ℕ → ℕ → State → Option State
  | 0, tail, s => if tail = 0 then some s else none
  | n + 1, tail, s =>
    let page := cxlPtrPage tail
    if tail = 0 then none
    else collectBlocks n (s.blockNext tail)
      { s with
        blockNext := update s.blockNext tail (s.localFree page)
        localFree := update s.localFree page tail
        used := update s.used page (dec32 (s.used page)) }

/-- `cxl_thread_free_collect` -/
def cxlThreadFreeCollect (page n : ℕ) : Option State :=
  let g := segmentIndex page
  if (s.info g).threadFree = 0 then some s
  else collectBlocks n (s.info g).threadFree
    { s with info := update s.info g ⟨(s.info g).state, 0⟩ }

/-- The part of `cxl_page_free_collect` that moves `local_free` to `free`. -/
def mergeLocalFree (page : ℕ) : State :=
  if s.localFree page ≠ 0 ∧ s.free page = 0 then
    { s with
      free := update s.free page (s.localFree page)
      localFree := update s.localFree page 0 }
  else s

/-- `cxl_page_free_collect` -/
def cxlPageFreeCollect (page n : ℕ) : Option State :=
  (s.cxlThreadFreeCollect page n).map fun s => s.mergeLocalFree page

/-! ## Blocks -/

/-- `cxl_page_malloc` of a page with free blocks and then `block_to_tbr`, `block_to_cxlobj` or
`block_to_msg_queue`, which finds the page from the block. -/
def blockTo (kind : Kind) (page : ℕ) : Option State :=
  let block := s.free page
  let page := if kind = .msgQueue then cxlPtrPage block else page
  if block = 0 then none
  else some { s with
    used := update s.used page (inc32 (s.used page))
    free := update s.free page (s.blockNext block)
    allocated := update s.allocated block (some kind.special) }

def setCall (t : ℕ) (c : Call) : State := { s with call := update s.call t c }

/-- The number of the queue that a client allocates from. -/
def queueOf (t : ℕ) (kind : Kind) : ℕ × ℕ := (t, cxlPageQueue kind.special kind.size)

/-- The beginning of an allocation: a block of the first page (`cxl_find_page`) or
`cxl_malloc_generic`.  Behind the queues of the client there is nothing to allocate from. -/
def allocStep (t : ℕ) (kind : Kind) : Option State :=
  let page := s.first (queueOf t kind)
  if freePage < (queueOf t kind).2 then none
  else if page ≠ 0 ∧ s.free page ≠ 0 then s.blockTo kind page
  else some (s.setCall t (.find kind page))

/-- One round of `cxl_page_queue_find_free_ex`, or `cxl_page_fresh` after the last one. -/
def findStep (size t g n : ℕ) : Option State :=
  match s.call t with
  | .idle => none
  | .find kind page =>
    if page = 0 then
      (s.cxlPageFresh size (queueOf t kind) g).bind fun (s, page) =>
        (s.setCall t .idle).blockTo kind page
    else
      (s.cxlPageFreeCollect page n).bind fun s' =>
        if s'.free page ≠ 0 then (s'.setCall t .idle).blockTo kind page
        else some (s'.setCall t (.find kind (s.next page)))

/-- The bytes that `cxl_free` clears. -/
def clearedBytes (special : Bool) (bs : ℕ) : ℕ :=
  if special = false then sizeofCXLObj
  else if bs = 16 then sizeofRootRef
  else sizeofMessageQueue

/-- `cxl_free` by client `t` -/
def cxlFree (t : ℕ) (special : Bool) (b : ℕ) : Option State :=
  let page := cxlPtrPage b
  let g := segmentIndex b
  let s := { s with
    blockNext := memset s.blockNext b (clearedBytes special (s.blockSize page))
    allocated := update s.allocated b none }
  if s.segmentThreadId g = t then
    let s := { s with
      blockNext := update s.blockNext b (s.localFree page)
      localFree := update s.localFree page b
      used := update s.used page (dec32 (s.used page)) }
    if s.used page = 0 then s.cxlPageFree t page (t, cxlPageQueue special (s.blockSize page))
    else some s
  else if (s.info g).state = .potentialLeaking then some s
  else some { s with
    blockNext := update s.blockNext b (s.info g).threadFree
    info := update s.info g ⟨(s.info g).state, b⟩ }

/-- `thread_init` that has claimed slot `t`. -/
def threadInit (t : ℕ) : State :=
  { s with
    first := fun q => if q.1 = t then 0 else s.first q
    last := fun q => if q.1 = t then 0 else s.last q
    queueBlockSize := fun q => if q.1 = t then initBlockSize q.2 else s.queueBlockSize q
    registered := update s.registered t true }

/-- A store of one word into the segments area. -/
def storeWord (a v : ℕ) : State :=
  let o := a % segmentSize
  let page := a - (o - metaPageStart) % sizeofPage
  if o < metaPageStart then
    { s with
      segmentThreadId := update s.segmentThreadId (segmentIndex a) (v % 2 ^ 16)
      segmentUsed := update s.segmentUsed (segmentIndex a) (v / 2 ^ 32 % 2 ^ 32) }
  else if o < sizeofSegment then
    match (o - metaPageStart) % sizeofPage / 8 with
    | 0 => { s with free := update s.free page v }
    | 1 => { s with localFree := update s.localFree page v }
    | 2 => { s with
      blockSize := update s.blockSize page (v % 2 ^ 32)
      used := update s.used page (v / 2 ^ 32 % 2 ^ 32) }
    | 3 => { s with next := update s.next page v }
    | 4 => { s with prev := update s.prev page v }
    | _ => s
  else { s with blockNext := update s.blockNext a v }

end State

/-- What happens next.  `alloc` begins an allocation and `find` goes on with it; `store` writes a
word of an allocated block, and `putEntry` is the store of `put` into word `h` of the client's
partition of the hash table. -/
inductive Action
  | threadInit (t : ℕ)
  | alloc (t : ℕ) (kind : Kind)
  | find (t g n : ℕ)
  | free (t : ℕ) (special : Bool) (b : ℕ)
  | store (b a v : ℕ)
  | putEntry (t h v : ℕ)
  deriving DecidableEq, Repr

/-- The step function, in an area of `size` bytes.  Calls are made by registered clients, one at a
time; `cxl_free` gets an allocated block and the flag it was allocated with. -/
def step (size : ℕ) (s : State) : Action → Option State
  | .threadInit t => if 1 ≤ t ∧ s.registered t = false then some (s.threadInit t) else none
  | .alloc t kind =>
    if s.registered t = true ∧ s.call t = .idle then s.allocStep t kind else none
  | .find t g n => s.findStep size t g n
  | .free t special b =>
    if s.registered t = true ∧ s.call t = .idle ∧ s.allocated b = some special then
      s.cxlFree t special b
    else none
  | .store b a v =>
    if (s.allocated b).isSome ∧ b ≤ a ∧ a < b + s.blockSize (cxlPtrPage b) then
      some { s with blockNext := Function.update s.blockNext a v }
    else none
  | .putEntry t h v =>
    let a := hashTableStart + (t - 1) * hashTableSize + 8 * h
    if s.registered t = true ∧ s.call t = .idle ∧ h < 2 ^ 17 then
      some (if a < segmentsAreaStart then s else s.storeWord a v)
    else none

end CxlShm.Heap
