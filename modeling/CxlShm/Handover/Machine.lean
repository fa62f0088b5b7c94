import CxlShm.Alloc.Blocks
import CxlShm.RefInfo

/-!
# A segment in the hands of one client after another

One segment of the shared memory: clients take it, cut its pages into blocks, hand the blocks out,
collect and free them, and leave in good order or stop at any access.  The monitor recovers the slot
of a client that has stopped, and either gives the segment back or leaves it abandoned; its loop
over all segments gives an abandoned one back when no object in it is in use.  Then the segment can
be taken again, and so can the slot.

A step is one access to a word that another party uses, together with the accesses of the owner to
its page records and queues that go with it.  A loop around a compare-exchange whose rounds write
nothing else is one step, the round that succeeds.

The element of a `put` is allocated as any other object, and what `put` writes beyond it lies in the
hash table.  One write of the monitor is left out: when its loop over all segments comes to a
message queue that both ends have left, it clears the block.  A message queue is never freed, so that
its block is on no chain of the segment, and the lists of its page are followed by the owner only,
who is gone by then.
-/

namespace CxlShm.Handover

open Linked Function Heap

/-- A slot of the thread local vector: `packed_machine_process_id` is 0, belongs to a client that is
running, or to one that has stopped. -/
inductive Slot
  | free
  | running
  | stopped
  deriving DecidableEq, Repr

/-- The next access of a client. -/
inductive Pc
  | idle
  /-- `sas->info = {0, 0}` of `cxl_segment_alloc` -/
  | storeInfo
  /-- `segment->thread_id = thread_id` -/
  | storeThreadId
  /-- `segment->used = 0` and the loop that fills `tls->free_page` -/
  | pushFreePages
  /-- `pq->cxl_page_queue_push(page, start)` of `cxl_page_fresh` -/
  | pushPage (i page : ℕ)
  /-- the stores into the block of `block_to_tbr`, `block_to_msg_queue` and `block_to_cxlobj` -/
  | storeBlock (i : ℕ) (b : Offset) (era : ℕ)
  /-- a round of the loop of `cxl_thread_free_collect`, for a page of `cxl_page_free_collect` or, on
  `exit`, of `normal_garbage_collection` -/
  | walk (page : ℕ) (tail : Offset) (exit : Bool)
  /-- `page->free = page->local_free` of `cxl_page_free_collect` -/
  | merge (page : ℕ)
  /-- `page->used == 0` of `normal_garbage_collection` -/
  | loadUsed (page : ℕ)
  /-- the compare-exchange of `normal_garbage_collection` that sets `ABANDON` -/
  | abandon
  /-- `memset(b, 0, ..)` of `cxl_free` -/
  | memset (b : Offset) (special : Bool)
  /-- `segment->thread_id == thread_id` -/
  | loadThreadId (b : Offset) (special : Bool)
  /-- `info = sas->info.load()` -/
  | load (b : Offset)
  /-- `b->next = info.thread_free` -/
  | storeNext (b : Offset) (info : StateFreeInfo)
  /-- `sas->info.compare_exchange_weak(info, new_info)` -/
  | cas (b : Offset) (info : StateFreeInfo)
  /-- `b->next = page->local_free` up to `page->used--` -/
  | freeLocal (b : Offset) (special : Bool)
  /-- `pq->cxl_page_queue_remove(page, start)` of `cxl_page_free` -/
  | removePage (page : ℕ) (special : Bool)
  /-- `memset(page, 0, ..)` up to `segment->used--` -/
  | clearPage (page : ℕ)
  /-- `memset(segment, 0, ..)` of `cxl_segment_free` -/
  | clearSegment
  /-- the compare-exchange of `sas->thread_id` -/
  | releaseSegment
  deriving DecidableEq, Repr

/-- The next access of the monitor, in the recovery of slot `t` or in the loop over the segments;
`rest` are the pages that it has not got to. -/
inductive Monitor
  | idle
  /-- the sweeps of the `RootRef`s and of the message queues -/
  | sweep (t : ℕ)
  /-- `memset(b, 0, ..)` of `recovery_cxl_free` -/
  | memset (t : ℕ) (b : Offset)
  /-- `segment->thread_id != tls_id` -/
  | loadThreadId (t : ℕ) (b : Offset)
  /-- `info = sas->info.load()` -/
  | load (t : ℕ) (b : Offset)
  /-- `b->next = info.thread_free` -/
  | storeNext (t : ℕ) (b : Offset) (info : StateFreeInfo)
  /-- `sas->info.compare_exchange_weak(info, new_info)` -/
  | cas (t : ℕ) (b : Offset) (info : StateFreeInfo)
  /-- `page_free->ref_info = 0` -/
  | page (t : ℕ) (rest : List ℕ)
  /-- `get_ref_cnt_from_info(o->ref_info) > 0` for the next one of `blocks` -/
  | scan (t page : ℕ) (blocks : List Offset) (rest : List ℕ)
  /-- `recovery_cxl_page_free` -/
  | clearPage (t page : ℕ) (rest : List ℕ)
  /-- the compare-exchange that sets `ABANDON` -/
  | abandon (t : ℕ) (rest : List ℕ)
  /-- `sas->thread_id.load() == tls_id && sas->info.load().state != ABANDON` -/
  | segment (t : ℕ)
  /-- `memset(segment, 0, ..)` of `recovery_cxl_segment_free` -/
  | clearSegment (t : ℕ)
  /-- the compare-exchange of `sas->thread_id` -/
  | release (t : ℕ)
  /-- the stores into the slot -/
  | freeTls (t : ℕ)
  /-- `page->block_size == 0` for the next one of `rest` -/
  | loopPage (rest : List ℕ)
  /-- `get_ref_cnt_from_info(o->ref_info) > 0`, or the ids of a message queue -/
  | loopScan (page : ℕ) (blocks : List Offset) (rest : List ℕ)
  /-- `memset(page, 0, ..)` -/
  | loopClearPage (page : ℕ) (rest : List ℕ)
  /-- `memset(segment, 0, ..)` -/
  | loopClearSegment
  /-- the compare-exchange that sets `{NORMAL, 0}` -/
  | loopStoreInfo
  /-- the compare-exchange of `sas->thread_id` -/
  | loopRelease
  deriving DecidableEq, Repr

/-- The words of the segment's allocation state and of its header, the records of its pages, the
first word of each block and the `ref_info` of each object, and the queues of each slot as far as
they hold pages of the segment.  `generation` counts how often the segment has been taken, and
`bornIn` is the generation in which a block was last handed out; a block is an `object` while
clients have references to it, and `rootOf` is the client whose `RootRef` it is. -/
structure State where
  sasThreadId : ℕ
  info : StateFreeInfo
  segmentThreadId : ℕ
  segmentUsed : ℕ
  blockSize : ℕ → ℕ
  used : ℕ → ℕ
  free : ℕ → Offset
  localFree : ℕ → Offset
  isMsgQueuePage : ℕ → Bool
  blockNext : Offset → ℕ
  refInfo : Offset → ℕ
  slot : ℕ → Slot
  pages : ℕ → ℕ → List ℕ
  freePage : ℕ → List ℕ
  pc : ℕ → Pc
  monitor : Monitor
  generation : ℕ
  bornIn : Offset → ℕ
  object : Offset → Bool
  rootOf : Offset → Option ℕ

/-- The area as it is mapped: all bytes are 0. -/
def State.init : State where
  sasThreadId := 0
  info := ⟨.normal, 0⟩
  segmentThreadId := 0
  segmentUsed := 0
  blockSize _ := 0
  used _ := 0
  free _ := 0
  localFree _ := 0
  isMsgQueuePage _ := false
  blockNext _ := 0
  refInfo _ := 0
  slot _ := .free
  pages _ _ := []
  freePage _ := []
  pc _ := .idle
  monitor := .idle
  generation := 0
  bornIn _ := 0
  object _ := false
  rootOf _ := none

/-- The records of the pages of segment `g`, in order. -/
def segmentPages (g : ℕ) : List ℕ :=
  (List.range' 1 (pagesPerSegment - 1)).map (metaPage (segmentAt g))

namespace State

variable (s : State)

def setPc (t : ℕ) (pc : Pc) : State := { s with pc := update s.pc t pc }

def setMonitor (m : Monitor) : State := { s with monitor := m }

def setNext (b x : Offset) : State := { s with blockNext := update s.blockNext b x }

def setRefInfo (b : Offset) (w : ℕ) : State := { s with refInfo := update s.refInfo b w }

/-- `memset(b, 0, ..)` -/
def clearBlock (b : Offset) : State := (s.setNext b 0).setRefInfo b 0

def setQueue (t i : ℕ) (l : List ℕ) : State :=
  { s with pages := update s.pages t (update (s.pages t) i l) }

/-- `memset(page, 0, sizeof(cxl_page_t))` -/
def clearRecord (page : ℕ) : State :=
  { s with
    blockSize := update s.blockSize page 0
    used := update s.used page 0
    free := update s.free page 0
    localFree := update s.localFree page 0
    isMsgQueuePage := update s.isMsgQueuePage page false }

/-- `memset(segment, 0, sizeof(cxl_segment_t))`; the segment has no `RootRef`s any more. -/
def clearHeader : State :=
  { s with
    segmentThreadId := 0
    segmentUsed := 0
    blockSize := fun _ => 0
    used := fun _ => 0
    free := fun _ => 0
    localFree := fun _ => 0
    isMsgQueuePage := fun _ => false
    rootOf := fun _ => none }

/-- `cxl_page_init` of a page for bin `i`, whose last block holds `stale` in the place of
`ref_info`, and `page->is_msg_queue_page`. -/
def initPage (i page stale : ℕ) : State :=
  let bs := initBlockSize i
  let start := cxlPageStart page
  let last := start + (pageSize / bs - 1) * bs
  { s with
    localFree := update s.localFree page 0
    blockSize := update s.blockSize page bs
    used := update s.used page 0
    isMsgQueuePage := update s.isMsgQueuePage page (i = 1)
    blockNext := update (Heap.State.linkBlocks bs (if i < 2 then 8 else sizeofCXLObj)
      (pageSize / bs - 1) start s.blockNext) last (s.free page)
    refInfo := fun b =>
      if b = last then stale else if 2 ≤ i ∧ start ≤ b ∧ b < last then 0 else s.refInfo b
    free := update s.free page start }

/-- The compare-exchange on `ref_info` by which `t` gives up a reference. -/
def dropRef (t : ℕ) (b : Offset) (era : ℕ) : State :=
  let cnt := getRefCntFromInfo (s.refInfo b)
  { s.setRefInfo b (packRefInfo t (cnt - 1) (era % 2 ^ 32)) with
    object := update s.object b (0 < cnt - 1) }

/-! ## Clients -/

/-- The next access of client `t`. -/
def clientStep (g t : ℕ) (weak : Bool) : Option State :=
  match s.pc t with
  | .idle => none
  | .storeInfo => some ({ s with info := ⟨.normal, 0⟩ }.setPc t .storeThreadId)
  | .storeThreadId => some ({ s with segmentThreadId := t }.setPc t .pushFreePages)
  | .pushFreePages =>
    some ({ s with
      segmentUsed := 0
      freePage := update s.freePage t (segmentPages g ++ s.freePage t) }.setPc t .idle)
  | .pushPage i page => some ((s.setQueue t i (page :: s.pages t i)).setPc t .idle)
  | .storeBlock i b era =>
    if i = 0 then some ({ s.setNext b 0 with rootOf := update s.rootOf b (some t) }.setPc t .idle)
    else if i = 1 then some ((s.setNext b 0).setPc t .idle)
    else some ({ s.setRefInfo b (packRefInfo t 1 (era % 2 ^ 32)) with
      object := update s.object b true }.setPc t .idle)
  | .walk page tail exit =>
    let p := cxlPtrPage tail
    if tail = 0 then some (s.setPc t (if exit then .loadUsed page else .merge page))
    else some ({ s.setNext tail (s.localFree p) with
      localFree := update s.localFree p tail
      used := update s.used p (dec32 (s.used p)) }.setPc t (.walk page (s.blockNext tail) exit))
  | .merge page =>
    if s.localFree page ≠ 0 ∧ s.free page = 0 then
      some ({ s with
        free := update s.free page (s.localFree page)
        localFree := update s.localFree page 0 }.setPc t .idle)
    else some (s.setPc t .idle)
  | .loadUsed page => some (s.setPc t (if s.used page = 0 then .removePage page false else .abandon))
  | .abandon => some ({ s with info := ⟨.abandon, s.info.threadFree⟩ }.setPc t .idle)
  | .memset b special => some ((s.clearBlock b).setPc t (.loadThreadId b special))
  | .loadThreadId b special =>
    some (s.setPc t (if s.segmentThreadId = t then .freeLocal b special else .load b))
  | .load b =>
    some (s.setPc t (if s.info.state = .potentialLeaking then .idle else .storeNext b s.info))
  | .storeNext b info => some ((s.setNext b info.threadFree).setPc t (.cas b info))
  | .cas b info =>
    if weak = false ∧ s.info = info then
      some ({ s with info := ⟨info.state, b⟩ }.setPc t .idle)
    else some (s.setPc t (.load b))
  | .freeLocal b special =>
    let page := cxlPtrPage b
    let used := dec32 (s.used page)
    some ({ s.setNext b (s.localFree page) with
      localFree := update s.localFree page b
      used := update s.used page used }.setPc t
        (if used = 0 then .removePage page special else .idle))
  | .removePage page special =>
    let i := cxlPageQueue special (s.blockSize page)
    some ((s.setQueue t i ((s.pages t i).erase page)).setPc t (.clearPage page))
  | .clearPage page =>
    let used := dec32 s.segmentUsed
    some ({ s.clearRecord page with
      freePage := update s.freePage t (page :: s.freePage t)
      segmentUsed := used }.setPc t (if used = 0 then .clearSegment else .idle))
  | .clearSegment =>
    some ({ s.clearHeader with freePage := update s.freePage t [] }.setPc t .releaseSegment)
  | .releaseSegment =>
    if s.sasThreadId = t then some ({ s with sasThreadId := 0 }.setPc t .idle) else none

/-! ## The monitor -/

/-- The next access of the monitor.  For a page of message queues, `weak` says that one of them is
in use. -/
def monitorStep (weak : Bool) : Option State :=
  match s.monitor with
  | .idle | .sweep _ => none
  | .memset t b => some ((s.clearBlock b).setMonitor (.loadThreadId t b))
  | .loadThreadId t b =>
    some (s.setMonitor (if s.segmentThreadId = t then .sweep t else .load t b))
  | .load t b => some (s.setMonitor (.storeNext t b s.info))
  | .storeNext t b info => some ((s.setNext b info.threadFree).setMonitor (.cas t b info))
  | .cas t b info =>
    if weak = false ∧ s.info = info then
      some ({ s with info := ⟨info.state, b⟩ }.setMonitor (.sweep t))
    else some (s.setMonitor (.load t b))
  | .page t [] => some (s.setMonitor (.segment t))
  | .page t (page :: rest) =>
    let bs := s.blockSize page
    if bs = 0 then none
    else some ((if s.free page = 0 then s else s.setRefInfo (s.free page) 0).setMonitor
      (.scan t page (blocksFrom bs (pageSize / bs) (cxlPageStart page)) rest))
  | .scan t page [] rest => some (s.setMonitor (.clearPage t page rest))
  | .scan t page (b :: blocks) rest =>
    some (s.setMonitor
      (if 0 < getRefCntFromInfo (s.refInfo b) then .abandon t rest else .scan t page blocks rest))
  | .clearPage t page rest => some ((s.clearRecord page).setMonitor (.page t rest))
  | .abandon t rest =>
    some ({ s with info := ⟨.abandon, s.info.threadFree⟩ }.setMonitor (.page t rest))
  | .segment t =>
    some (s.setMonitor
      (if s.sasThreadId = t ∧ s.info.state ≠ .abandon then .clearSegment t else .freeTls t))
  | .clearSegment t => some (s.clearHeader.setMonitor (.release t))
  | .release t =>
    if s.sasThreadId = t then some ({ s with sasThreadId := 0 }.setMonitor (.freeTls t)) else none
  | .freeTls t =>
    some ({ s with
      slot := update s.slot t .free
      pages := update s.pages t fun _ => []
      freePage := update s.freePage t [] }.setMonitor .idle)
  | .loopPage [] => some (s.setMonitor .loopClearSegment)
  | .loopPage (page :: rest) =>
    let bs := s.blockSize page
    some (s.setMonitor (if bs = 0 then .loopPage rest
      else .loopScan page (blocksFrom bs (pageSize / bs) (cxlPageStart page)) rest))
  | .loopScan page [] rest => some (s.setMonitor (.loopClearPage page rest))
  | .loopScan page (b :: blocks) rest =>
    some (s.setMonitor
      (if s.isMsgQueuePage page then if weak then .idle else .loopScan page blocks rest
      else if 0 < getRefCntFromInfo (s.refInfo b) then .idle else .loopScan page blocks rest))
  | .loopClearPage page rest => some ((s.clearRecord page).setMonitor (.loopPage rest))
  | .loopClearSegment => some (s.clearHeader.setMonitor .loopStoreInfo)
  | .loopStoreInfo => some ({ s with info := ⟨.normal, 0⟩ }.setMonitor .loopRelease)
  | .loopRelease => some ({ s with sasThreadId := 0 }.setMonitor .idle)

end State

/-- What happens next.  Which call a client makes next is open, and so are the references that a
client has and the order in which the monitor comes upon those of a slot.  `client` and `monitor` go
on with what has begun. -/
inductive Action
  /-- `thread_init` -/
  | register (t : ℕ)
  | crash (t : ℕ)
  /-- the stores into the slot at the end of `normal_garbage_collection` -/
  | leave (t : ℕ)
  /-- the compare-exchange of `cxl_segment_alloc` -/
  | acquire (t : ℕ)
  /-- `cxl_segment_page_alloc` and `cxl_page_init` of `cxl_page_fresh` -/
  | takePage (t i stale : ℕ)
  /-- a block of a page with free ones, up to `page->free = b->next` -/
  | alloc (t i page era : ℕ)
  /-- `cxl_thread_free_collect`, up to the compare-exchange -/
  | collect (t i page : ℕ) (exit : Bool)
  /-- the compare-exchange of `link_reference` -/
  | link (t : ℕ) (b : Offset) (era : ℕ)
  /-- the compare-exchange of `unlink_reference`, and `cxl_free` after the last reference -/
  | unlink (t : ℕ) (b : Offset) (era : ℕ)
  /-- a store into `tbr->pptr` -/
  | storeRoot (t : ℕ) (b : Offset) (w : ℕ)
  /-- `cxl_free(true, tbr)` -/
  | freeRoot (t : ℕ) (b : Offset)
  /-- a queue that the client sends on marks the segment `ABANDON` in `normal_garbage_collection` -/
  | exitQueue (t : ℕ)
  | client (t : ℕ) (weak : Bool)
  /-- the monitor begins with a slot -/
  | recover (t : ℕ)
  /-- the store of `redo_ref_cnt` -/
  | redo (a : Offset) (w : ℕ)
  /-- the compare-exchange of `redo_ref_cnt` that sets `POTENTIAL_LEAKING` -/
  | leak
  /-- the compare-exchange of `recovery_unlink_reference` -/
  | drop (b : Offset) (era : ℕ)
  /-- `recovery_cxl_free(true, tbr)` -/
  | clearRoot (b : Offset)
  /-- `recovery_cxl_page_free` of a page of `RootRef`s -/
  | clearRootPage (page : ℕ)
  /-- a queue that the client sends on marks the segment `ABANDON` -/
  | markQueue
  /-- the monitor goes on to the pages of objects -/
  | objectPages
  /-- the monitor comes to the segment in the loop over all segments -/
  | segmentLoop
  | monitor (weak : Bool)
  deriving DecidableEq, Repr

namespace State

variable (s : State)

/-- The client is between two calls. -/
def Ready (t : ℕ) : Prop := s.slot t = .running ∧ s.pc t = .idle

instance (t : ℕ) : Decidable (s.Ready t) := inferInstanceAs (Decidable (_ ∧ _))

/-- The pages in the queues for objects of client `t`. -/
def objectPages (t : ℕ) : List ℕ := (List.range' 2 (cxlBinSize - 2)).flatMap (s.pages t)

end State

/-- The step function, for segment `g`. -/
def step (g : ℕ) (s : State) : Action → Option State
  | .register t =>
    if 1 ≤ t ∧ s.slot t = .free then
      some { s with
        slot := update s.slot t .running
        pages := update s.pages t fun _ => []
        freePage := update s.freePage t [] }
    else none
  | .crash t =>
    if s.slot t = .running then
      some ({ s with slot := update s.slot t .stopped }.setPc t .idle)
    else none
  | .leave t =>
    if s.Ready t then
      some { s with
        slot := update s.slot t .free
        pages := update s.pages t fun _ => []
        freePage := update s.freePage t [] }
    else none
  | .acquire t =>
    if s.Ready t ∧ s.sasThreadId = 0 then
      some ({ s with sasThreadId := t, generation := s.generation + 1 }.setPc t .storeInfo)
    else none
  | .takePage t i stale =>
    match s.freePage t with
    | [] => none
    | page :: rest =>
      if s.Ready t then
        some ({ s.initPage i page stale with
          freePage := update s.freePage t rest
          segmentUsed := inc32 s.segmentUsed }.setPc t (.pushPage i page))
      else none
  | .alloc t i page era =>
    let b := s.free page
    if s.Ready t ∧ page ∈ s.pages t i ∧ b ≠ 0 then
      some ({ s with
        used := update s.used page (inc32 (s.used page))
        free := update s.free page (s.blockNext b)
        bornIn := update s.bornIn b s.generation }.setPc t (.storeBlock i b era))
    else none
  | .collect t i page exit =>
    if s.Ready t ∧ page ∈ s.pages t i ∧ (exit = true → 2 ≤ i) then
      some ({ s with info := ⟨s.info.state, 0⟩ }.setPc t (.walk page s.info.threadFree exit))
    else none
  | .link t b era =>
    if s.Ready t then
      some (s.setRefInfo b (packRefInfo t (getRefCntFromInfo (s.refInfo b) + 1) (era % 2 ^ 32)))
    else none
  | .unlink t b era =>
    if s.Ready t then
      let s' := s.dropRef t b era
      some (if s'.object b then s' else s'.setPc t (.memset b false))
    else none
  | .storeRoot t b w => if s.Ready t then some (s.setNext b w) else none
  | .freeRoot t b =>
    if s.Ready t then some ({ s with rootOf := update s.rootOf b none }.setPc t (.memset b true))
    else none
  | .exitQueue t =>
    if s.Ready t ∧ s.pages t 1 ≠ [] then some { s with info := ⟨.abandon, s.info.threadFree⟩ }
    else none
  | .client t weak => s.clientStep g t weak
  | .recover t =>
    if s.monitor = .idle ∧ s.slot t ≠ .free then some (s.setMonitor (.sweep t)) else none
  | .redo a w =>
    match s.monitor with
    | .sweep _ => some (s.setNext a w)
    | _ => none
  | .leak =>
    match s.monitor with
    | .sweep _ => some { s with info := ⟨.potentialLeaking, s.info.threadFree⟩ }
    | _ => none
  | .drop b era =>
    match s.monitor with
    | .sweep t =>
      let s' := s.dropRef t b era
      some (if s'.object b then s' else s'.setMonitor (.memset t b))
    | _ => none
  | .clearRoot b =>
    match s.monitor with
    | .sweep t =>
      if s.rootOf b = some t then
        some ({ s with rootOf := update s.rootOf b none }.setMonitor (.memset t b))
      else none
    | _ => none
  | .clearRootPage page =>
    match s.monitor with
    | .sweep t => if page ∈ s.pages t 0 then some (s.clearRecord page) else none
    | _ => none
  | .markQueue =>
    match s.monitor with
    | .sweep t =>
      if s.pages t 1 ≠ [] then some { s with info := ⟨.abandon, s.info.threadFree⟩ } else none
    | _ => none
  | .objectPages =>
    match s.monitor with
    | .sweep t => some (s.setMonitor (.page t (s.objectPages t)))
    | _ => none
  | .segmentLoop =>
    if s.monitor = .idle ∧ s.sasThreadId ≠ 0 then
      some (s.setMonitor (.loopPage (metaPage (segmentAt g) 0 :: segmentPages g)))
    else none
  | .monitor weak => s.monitorStep weak

end CxlShm.Handover
