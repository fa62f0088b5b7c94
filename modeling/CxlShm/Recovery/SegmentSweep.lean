import CxlShm.Alloc.Pages
import CxlShm.RefInfo

/-!
# The segment loop of the monitor

`single_recovery_loop` goes through the segments after it has gone through the thread-local states, and
judges a segment by the counts that it finds in it.  Clients that register behind the first loop
allocate meanwhile, so a step of a client is a single access to what the loop reads: the owner and the
free-block word of a segment, the `block_size` and `is_msg_queue_page` of a page record, the word of a
block that holds a count or the ends of a queue.  A step of the loop is one access to the owner, to
the record of a page or to the header, or one round over the blocks of a page: it reads the record,
its flag and the word of a block together, and clears the block if it is a queue without ends.
-/

namespace CxlShm.SegmentSweep

open Function Reachability
open Heap (Kind memset freePage initBlockSize inc32)

/-- `MAX_SEGMENT_NUM` -/
def maxSegmentNum : ℕ := 4096

/-- Where a client is: between calls, or inside an allocation for `kind`. -/
inductive Pc
  | idle
  /-- In `cxl_page_queue_find_free_ex` before it looks at `page`; with `page = 0` in
  `cxl_segment_page_alloc` before it looks for a free page. -/
  | find (kind : Kind) (page : ℕ)
  /-- In `cxl_segment_alloc` after its compare-exchange, before `sas->info` is stored. -/
  | acquired (kind : Kind) (g : ℕ)
  /-- Before the segment header is stored. -/
  | segment (kind : Kind) (g : ℕ)
  /-- In `cxl_page_init` before `block_size` is stored. -/
  | init (kind : Kind) (page : ℕ)
  /-- Before `is_msg_queue_page` is cleared. -/
  | flagOff (kind : Kind) (page : ℕ)
  /-- In the loop of `cxl_page_init`, at block `b`. -/
  | link (kind : Kind) (page b : ℕ)
  /-- In `cxl_page_fresh` behind `cxl_page_init`. -/
  | flagOn (kind : Kind) (page : ℕ)
  /-- Before the first block of `page->free` is taken. -/
  | take (kind : Kind) (page : ℕ)
  /-- Before the block that was taken is filled in. -/
  | fill (kind : Kind) (b : ℕ)
  deriving DecidableEq, Repr

/-- Where the segment loop is. -/
inductive Sweep
  /-- Before `sas->thread_id` of segment `g` is read. -/
  | segment (g : ℕ)
  /-- Before `block_size` of record `j` is read, with `live_page_cnt = 0`. -/
  | page (g j : ℕ)
  /-- In the loop over the blocks of page `j`, with `live_block_cnt = 0`. -/
  | block (g j b last : ℕ)
  /-- Before `memset(page, 0, sizeof(cxl_page_t))`. -/
  | clearPage (g j : ℕ)
  /-- Before `memset(segment, 0, sizeof(cxl_segment_t))`. -/
  | clearSegment (g : ℕ)
  /-- Before the compare-exchange of `sas->info`. -/
  | info (g : ℕ)
  /-- Before the compare-exchange of `sas->thread_id`. -/
  | owner (g : ℕ)
  | done
  deriving DecidableEq, Repr

/-- The allocator's memory, in which `blockNext` is read at every word of a block, the flags of the page
records, and what the clients hold: their own era, the `RootRef` for the object of the `cxl_malloc` that
is under way (0 if there is none) and its argument.  The registered slots are those of clients that came
behind the first loop. -/
structure State where
  heap : Heap.State
  isMsgQueuePage : ℕ → Bool
  era : ℕ → ℕ
  tbr : ℕ → ℕ
  embeddedRefCnt : ℕ → ℕ
  pc : ℕ → Pc
  sweep : Sweep

/-- `in_use = 1` and `ref_cnt = 0` in the second word of a `RootRef`; the rest of it is padding. -/
def newRootRef (w : ℕ) : ℕ := w / 2 ^ 32 * 2 ^ 32 + w / 2 ^ 8 % 2 ^ 8 * 2 ^ 8 + 1

/-- `ref_cnt += 1` in the second word of a `RootRef`. -/
def incRootRef (w : ℕ) : ℕ := w / 2 ^ 32 * 2 ^ 32 + (w / 2 ^ 16 + 1) % 2 ^ 16 * 2 ^ 16 + w % 2 ^ 16

/-- The word of `sender_id` and `receiver_id` of a queue that has been sent nothing yet. -/
def newEndpoints (w t : ℕ) : ℕ := w / 2 ^ 32 * 2 ^ 32 + t % 2 ^ 16

/-- `q->receiver_id != 0 || q->sender_id != 0` -/
def hasEndpoint (w : ℕ) : Bool := w % 2 ^ 32 ≠ 0

namespace State

variable (s : State)

def setPc (t : ℕ) (pc : Pc) : State := { s with pc := update s.pc t pc }

/-! ## Clients -/

/-- `thread_init` that has claimed slot `t`. -/
def threadInit (t : ℕ) : State :=
  { s with
    heap := s.heap.threadInit t
    era := update s.era t (inc32 (s.era t))
    tbr := update s.tbr t 0
    pc := update s.pc t .idle }

/-- The beginning of an allocation. -/
def allocStep (t : ℕ) (kind : Kind) (embeddedRefCnt : ℕ) : Option State :=
  let q := Heap.State.queueOf t kind
  let page := s.heap.first q
  if freePage < q.2 then none
  else some { s with
    embeddedRefCnt := update s.embeddedRefCnt t embeddedRefCnt
    pc := update s.pc t
      (if page ≠ 0 ∧ s.heap.free page ≠ 0 then .take kind page else .find kind page) }

/-- One piece of `cxl_page_queue_find_free_ex` or `cxl_segment_page_alloc`. -/
def findStep (size t : ℕ) (kind : Kind) (page g n : ℕ) : Option State :=
  if page ≠ 0 then
    (s.heap.cxlPageFreeCollect page n).map fun heap =>
      { s with heap }.setPc t
        (if heap.free page ≠ 0 then .take kind page else .find kind (s.heap.next page))
  else if s.heap.first (t, freePage) ≠ 0 then
    some ({ s with heap := (s.heap.takeFreePage t).1 }.setPc t
      (.init kind (s.heap.takeFreePage t).2))
  else if segmentsAreaStart + (g + 1) * segmentSize ≤ size ∧ s.heap.sasThreadId g = 0 then
    some ({ s with heap.sasThreadId := update s.heap.sasThreadId g t }.setPc t (.acquired kind g))
  else none

/-- `sas->info = {0, 0}` -/
def storeInfo (g : ℕ) : State :=
  { s with heap.info := update s.heap.info g ⟨.normal, 0⟩ }

/-- The rest of `cxl_segment_alloc`: the segment header and the list of free pages. -/
def storeSegment (t g : ℕ) : State :=
  let header :=
    { s.heap with
      segmentThreadId := update s.heap.segmentThreadId g (t % 2 ^ 16)
      segmentUsed := update s.heap.segmentUsed g 0 }
  { s with heap := Heap.State.pushPages (t, freePage) g (pagesPerSegment - 1) header }

/-- The stores of `cxl_page_init` to the page record, up to `is_msg_queue_page`. -/
def storePage (page bs : ℕ) : State :=
  { s with
    heap.localFree := update s.heap.localFree page 0
    heap.blockSize := update s.heap.blockSize page (bs % 2 ^ 32)
    heap.used := update s.heap.used page 0
    heap.next := update s.heap.next page 0
    heap.prev := update s.heap.prev page 0 }

/-- One round of the loop of `cxl_page_init`, or what comes behind it. -/
def linkStep (t : ℕ) (kind : Kind) (page b : ℕ) : State :=
  let q := Heap.State.queueOf t kind
  let bs := s.heap.queueBlockSize q
  let start := cxlPageStart page
  let last := start + (pageSize / bs - 1) * bs
  if b < last then
    let cleared := memset s.heap.blockNext b (if q.2 < 2 then 8 else sizeofCXLObj)
    { s with heap.blockNext := update cleared b (b + bs) }.setPc t (.link kind page (b + bs))
  else
    { s with
      heap.blockNext := update s.heap.blockNext last (s.heap.free page)
      heap.free := update s.heap.free page start }.setPc t (.flagOn kind page)

/-- The rest of `cxl_page_fresh`. -/
def pushPage (t : ℕ) (kind : Kind) (page : ℕ) : State :=
  let q := Heap.State.queueOf t kind
  { s with
    isMsgQueuePage := if q.2 = 1 then update s.isMsgQueuePage page true else s.isMsgQueuePage
    heap := s.heap.cxlPageQueuePush q page }

/-- `link_block_to_tbr` -/
def linkBlockToTbr (b tbr : ℕ) : State :=
  let m := s.heap.blockNext
  { s with heap.blockNext := update (update m tbr b) (tbr + 8) (incRootRef (m (tbr + 8))) }

/-- `cxl_page_malloc` of a page with free blocks; an object is linked to the `RootRef` first. -/
def takeStep (t : ℕ) (kind : Kind) (page : ℕ) : Option State :=
  let b := s.heap.free page
  let s := if kind.special = false ∧ s.tbr t ≠ 0 then s.linkBlockToTbr b (s.tbr t) else s
  (s.heap.blockTo kind page).map fun heap => { s with heap }.setPc t (.fill kind b)

/-- The stores of `block_to_tbr`, `block_to_msg_queue` and `block_to_cxlobj` to the block. -/
def fillStep (t : ℕ) (kind : Kind) (b : ℕ) : State :=
  let m := s.heap.blockNext
  match kind with
  | .rootRef =>
    { s with
      heap.blockNext := update (update m b 0) (b + 8) (newRootRef (m (b + 8)))
      tbr := update s.tbr t b }
  | .msgQueue =>
    { s with
      heap.blockNext := update (memset (memset m b 16) (b + 24) 144) (b + 16)
        (newEndpoints (m (b + 16)) t) }
  | .obj _ =>
    { s with
      heap.blockNext := update (update m (b + 8) (packRefInfo t 1 (s.era t))) (b + 16)
        (s.embeddedRefCnt t)
      era := update s.era t (inc32 (s.era t))
      tbr := update s.tbr t 0 }

/-- The next piece of the allocation that client `t` is in. -/
def runStep (size t g n : ℕ) : Option State :=
  match s.pc t with
  | .idle => none
  | .find kind page => s.findStep size t kind page g n
  | .acquired kind g => some ((s.storeInfo g).setPc t (.segment kind g))
  | .segment kind g => some ((s.storeSegment t g).setPc t (.find kind 0))
  | .init kind page =>
    let bs := s.heap.queueBlockSize (Heap.State.queueOf t kind)
    if bs = 0 then none else some ((s.storePage page bs).setPc t (.flagOff kind page))
  | .flagOff kind page =>
    some ({ s with isMsgQueuePage := update s.isMsgQueuePage page false }.setPc t
      (.link kind page (cxlPageStart page)))
  | .link kind page b => some (s.linkStep t kind page b)
  | .flagOn kind page => some ((s.pushPage t kind page).setPc t (.take kind page))
  | .take kind page => s.takeStep t kind page
  | .fill kind b => some ((s.fillStep t kind b).setPc t .idle)

/-! ## The monitor -/

/-- The block counts as live: as a queue with an end, or as an object with a count. -/
def live (page b : ℕ) : Bool :=
  if s.isMsgQueuePage page then hasEndpoint (s.heap.blockNext (b + 16))
  else 0 < getRefCntFromInfo (s.heap.blockNext (b + 8))

/-- `memset(q, 0, sizeof(cxl_message_queue_t))` of a queue without ends -/
def clearQueue (page b : ℕ) : State :=
  if s.isMsgQueuePage page then
    { s with heap.blockNext := memset s.heap.blockNext b Heap.sizeofMessageQueue }
  else s

/-- `memset(page, 0, sizeof(cxl_page_t))` -/
def clearPage (page : ℕ) : State :=
  { s with
    heap := s.heap.clearPage page
    isMsgQueuePage := update s.isMsgQueuePage page false }

/-- `memset(segment, 0, sizeof(cxl_segment_t))` -/
def clearSegment (g : ℕ) : State :=
  { s with
    heap := s.heap.clearSegment g
    isMsgQueuePage := fun p =>
      if segmentAt g ≤ p ∧ p < segmentAt g + sizeofSegment then false else s.isMsgQueuePage p }

/-- The next access of the segment loop. -/
def sweepStep : Option State :=
  match s.sweep with
  | .segment g =>
    if maxSegmentNum ≤ g then some { s with sweep := .done }
    else if s.heap.sasThreadId g = 0 then some { s with sweep := .segment (g + 1) }
    else some { s with sweep := .page g 0 }
  | .page g j =>
    let page := metaPage (segmentAt g) j
    let bs := s.heap.blockSize page
    if pagesPerSegment ≤ j then some { s with sweep := .clearSegment g }
    else if bs = 0 then some { s with sweep := .page g (j + 1) }
    else some { s with
      sweep := .block g j (cxlPageStart page) (cxlPageStart page + (pageSize / bs - 1) * bs) }
  | .block g j b last =>
    let page := metaPage (segmentAt g) j
    if last < b then some { s with sweep := .clearPage g j }
    else if s.live page b then some { s with sweep := .segment (g + 1) }
    else some { s.clearQueue page b with sweep := .block g j (b + s.heap.blockSize page) last }
  | .clearPage g j =>
    some { s.clearPage (metaPage (segmentAt g) j) with sweep := .page g (j + 1) }
  | .clearSegment g => some { s.clearSegment g with sweep := .info g }
  | .info g => some { s.storeInfo g with sweep := .owner g }
  | .owner g =>
    some { s with heap.sasThreadId := update s.heap.sasThreadId g 0, sweep := .segment (g + 1) }
  | .done => none

end State

/-- What happens next: the monitor goes on, a client registers, begins an allocation
(`embeddedRefCnt` is for an object) or goes on with it; `g` is the segment that its compare-exchange
succeeds on, `n` the number of blocks that it collects. -/
inductive Action
  | sweep
  | threadInit (t : ℕ)
  | alloc (t : ℕ) (kind : Kind) (embeddedRefCnt : ℕ)
  | run (t g n : ℕ)
  deriving DecidableEq, Repr

/-- The step function, in an area of `size` bytes. -/
def step (size : ℕ) (s : State) : Action → Option State
  | .sweep => s.sweepStep
  | .threadInit t =>
    if 1 ≤ t ∧ s.heap.registered t = false then some (s.threadInit t) else none
  | .alloc t kind embeddedRefCnt =>
    if s.heap.registered t = true ∧ s.pc t = .idle then s.allocStep t kind embeddedRefCnt else none
  | .run t g n => if s.heap.registered t = true then s.runStep size t g n else none

/-! ## What the loop may not do -/

/-- The segment belongs to a client that registered behind the first loop. -/
def Owned (s : State) (g : ℕ) : Prop :=
  s.heap.sasThreadId g ≠ 0 ∧ s.heap.registered (s.heap.sasThreadId g) = true

/-- The next access zeroes a page record or the header of segment `g`, or gives the segment away. -/
def Sweep.Zeroes (g : ℕ) : Sweep → Prop
  | .clearPage g' _ | .clearSegment g' | .owner g' => g' = g
  | .segment _ | .page .. | .block .. | .info _ | .done => False

/-- The owner, the header and the page records of segment `g` are the same in both states. -/
structure SameSegment (s s' : State) (g : ℕ) : Prop where
  owner : s'.heap.sasThreadId g = s.heap.sasThreadId g
  segmentThreadId : s'.heap.segmentThreadId g = s.heap.segmentThreadId g
  segmentUsed : s'.heap.segmentUsed g = s.heap.segmentUsed g
  page : ∀ j < pagesPerSegment,
    s'.heap.free (metaPage (segmentAt g) j) = s.heap.free (metaPage (segmentAt g) j) ∧
    s'.heap.localFree (metaPage (segmentAt g) j) = s.heap.localFree (metaPage (segmentAt g) j) ∧
    s'.heap.blockSize (metaPage (segmentAt g) j) = s.heap.blockSize (metaPage (segmentAt g) j) ∧
    s'.heap.used (metaPage (segmentAt g) j) = s.heap.used (metaPage (segmentAt g) j) ∧
    s'.heap.next (metaPage (segmentAt g) j) = s.heap.next (metaPage (segmentAt g) j) ∧
    s'.heap.prev (metaPage (segmentAt g) j) = s.heap.prev (metaPage (segmentAt g) j) ∧
    s'.isMsgQueuePage (metaPage (segmentAt g) j) = s.isMsgQueuePage (metaPage (segmentAt g) j)

/-! ## What the loop has to find -/

/-- A block of a segment, with the page that it lies in. -/
structure Anchor where
  page : ℕ
  block : ℕ

/-- What the loop has to find at its next access, where that is to segment `g`: no page before the one
of the block has a `block_size`; this one has; the block is live, and not passed over before. -/
def Finds (s : State) (g : ℕ) (a : Anchor) : Prop :=
  match s.sweep with
  | .page g' j =>
    let page := metaPage (segmentAt g) j
    let bs := s.heap.blockSize page
    g' = g → a.page < pagesPerSegment ∧
      if j = a.page then
        bs ≠ 0 ∧ cxlPageStart page ≤ a.block ∧
          a.block ≤ cxlPageStart page + (pageSize / bs - 1) * bs
      else bs = 0
  | .block g' j b _ =>
    let page := metaPage (segmentAt g) j
    g' = g → if b = a.block then s.live page b = true else b + s.heap.blockSize page ≤ a.block
  | .segment _ | .clearPage .. | .clearSegment _ | .info _ | .owner _ | .done => True

/-- The loop has not come past the block. -/
def Sweep.Before (g : ℕ) (a : Anchor) : Sweep → Prop
  | .page g' j => g' = g → j ≤ a.page
  | .block g' j b last => g' = g → j = a.page ∧ b ≤ a.block ∧ a.block ≤ last
  | .clearPage g' _ | .clearSegment g' | .info g' | .owner g' => g' ≠ g
  | .segment _ | .done => True

/-- The monitor finds the blocks in the segments of the new clients, and nobody registers in a slot
whose id is that of a segment that the loop is in, once it is past the block. -/
structure Anchored (anchor : ℕ → Anchor) (s : State) (act : Action) (_ : State) : Prop where
  finds : act = .sweep → ∀ g, Owned s g → Finds s g (anchor g)
  before : ∀ t, act = .threadInit t → ∀ g, s.heap.sasThreadId g = t → s.sweep.Before g (anchor g)

variable {size : ℕ} {s s' : State} {act : Action} {anchor : ℕ → Anchor}

/-! ## Steps of the clients -/

/-- What a client's step leaves of what the loop goes by: its position, the owners of the segments that
have one, and who is registered. -/
structure ClientStep (s : State) (act : Action) (s' : State) : Prop where
  sweep : s'.sweep = s.sweep
  owner : ∀ g, s.heap.sasThreadId g ≠ 0 → s'.heap.sasThreadId g = s.heap.sasThreadId g
  registered : ∀ t, s'.heap.registered t = true → s.heap.registered t = true ∨ act = .threadInit t

theorem ClientStep.of_same (sweep : s'.sweep = s.sweep)
    (owner : s'.heap.sasThreadId = s.heap.sasThreadId)
    (registered : s'.heap.registered = s.heap.registered) : ClientStep s act s' :=
  ⟨sweep, fun g _ => congrFun owner g, fun _ h => .inl (registered ▸ h)⟩

theorem ClientStep.setPc {t : ℕ} {pc : Pc} (h : ClientStep s act s') :
    ClientStep s act (s'.setPc t pc) :=
  ⟨h.sweep, h.owner, h.registered⟩

theorem owners_collectBlocks {h h' : Heap.State} {n tail : ℕ}
    (run : Heap.State.collectBlocks n tail h = some h') :
    h'.sasThreadId = h.sasThreadId ∧ h'.registered = h.registered := by
  induction n generalizing tail h with
  | zero =>
    simp only [Heap.State.collectBlocks] at run
    split at run
    · obtain rfl := Option.some.inj run
      exact ⟨rfl, rfl⟩
    · cases run
  | succ n ih =>
    simp only [Heap.State.collectBlocks] at run
    split at run
    · cases run
    · have same := ih run
      exact same

theorem owners_cxlPageFreeCollect {h h' : Heap.State} {n page : ℕ}
    (run : h.cxlPageFreeCollect page n = some h') :
    h'.sasThreadId = h.sasThreadId ∧ h'.registered = h.registered := by
  obtain ⟨h₁, collected, rfl⟩ := Option.map_eq_some_iff.1 run
  have merged : (h₁.mergeLocalFree page).sasThreadId = h₁.sasThreadId ∧
      (h₁.mergeLocalFree page).registered = h₁.registered := by
    rw [Heap.State.mergeLocalFree]
    split <;> exact ⟨rfl, rfl⟩
  rw [merged.1, merged.2]
  simp only [Heap.State.cxlThreadFreeCollect] at collected
  split at collected
  · obtain rfl := Option.some.inj collected
    exact ⟨rfl, rfl⟩
  · have same := owners_collectBlocks collected
    exact same

theorem clientStep_find {t page g n : ℕ} {kind : Kind}
    (run : s.findStep size t kind page g n = some s') : ClientStep s act s' := by
  rw [State.findStep] at run
  split at run
  · obtain ⟨h, collected, rfl⟩ := Option.map_eq_some_iff.1 run
    obtain ⟨owner, registered⟩ := owners_cxlPageFreeCollect collected
    exact .of_same rfl owner registered
  split at run
  · obtain rfl := Option.some.inj run
    exact .of_same rfl rfl rfl
  split at run
  · next free =>
    obtain rfl := Option.some.inj run
    refine ⟨rfl, fun g' owned => ?_, fun t h => .inl h⟩
    have other : g' ≠ g := by
      rintro rfl
      exact owned free.2
    exact update_of_ne other _ _
  · cases run

theorem clientStep_storeSegment (s : State) (t g : ℕ) : ClientStep s act (s.storeSegment t g) := by
  rw [State.storeSegment]
  generalize pagesPerSegment - 1 = n
  have same := Heap.State.sameElse_pushPages (q := (t, freePage)) (g := g) n
    { s.heap with
      segmentThreadId := update s.heap.segmentThreadId g (t % 2 ^ 16)
      segmentUsed := update s.heap.segmentUsed g 0 }
  exact .of_same rfl same.sasThreadId same.registered

theorem owners_blockTo {h h' : Heap.State} {kind : Kind} {page : ℕ}
    (run : h.blockTo kind page = some h') :
    h'.sasThreadId = h.sasThreadId ∧ h'.registered = h.registered := by
  simp only [Heap.State.blockTo] at run
  split at run
  · cases run
  · obtain rfl := Option.some.inj run
    exact ⟨rfl, rfl⟩

theorem clientStep_take {t page : ℕ} {kind : Kind} (run : s.takeStep t kind page = some s') :
    ClientStep s act s' := by
  obtain ⟨h, taken, rfl⟩ := Option.map_eq_some_iff.1 run
  split at taken
  · obtain ⟨owner, registered⟩ := owners_blockTo taken
    split <;> exact .of_same rfl owner registered
  · obtain ⟨owner, registered⟩ := owners_blockTo taken
    split <;> exact .of_same rfl owner registered

theorem clientStep_run {t g n : ℕ} (run : s.runStep size t g n = some s') : ClientStep s act s' := by
  rw [State.runStep] at run
  split at run
  · cases run
  · exact clientStep_find run
  · obtain rfl := Option.some.inj run
    exact .of_same rfl rfl rfl
  · obtain rfl := Option.some.inj run
    apply ClientStep.setPc
    exact clientStep_storeSegment s t _
  · simp only at run
    split at run
    · cases run
    · obtain rfl := Option.some.inj run
      exact .of_same rfl rfl rfl
  · obtain rfl := Option.some.inj run
    exact .of_same rfl rfl rfl
  · obtain rfl := Option.some.inj run
    rw [State.linkStep]
    split <;> exact .of_same rfl rfl rfl
  · obtain rfl := Option.some.inj run
    exact .of_same rfl rfl rfl
  · exact clientStep_take run
  · next kind b _ =>
    obtain rfl := Option.some.inj run
    cases kind <;> exact .of_same rfl rfl rfl

/-- A client takes segments that belong to nobody, and the loop goes on where it was. -/
theorem clientStep_of_step (run : step size s act = some s') (client : act ≠ .sweep) :
    ClientStep s act s' := by
  cases act with
  | sweep => exact absurd rfl client
  | threadInit t =>
    simp only [step] at run
    split at run
    · obtain rfl := Option.some.inj run
      refine ⟨rfl, fun _ _ => rfl, fun t' registered => ?_⟩
      by_cases same : t' = t
      · exact .inr (by rw [same])
      · change update s.heap.registered t true t' = true at registered
        rw [update_of_ne same] at registered
        exact .inl registered
    · cases run
  | alloc t kind embeddedRefCnt =>
    simp only [step] at run
    split at run
    · simp only [State.allocStep] at run
      split at run
      · cases run
      · obtain rfl := Option.some.inj run
        exact .of_same rfl rfl rfl
    · cases run
  | run t g n =>
    simp only [step] at run
    split at run
    · exact clientStep_run run
    · cases run

/-! ## The loop -/

/-- The loop is at segment `g`. -/
def Sweep.Inside (g : ℕ) : Sweep → Prop
  | .page g' _ | .block g' .. | .clearPage g' _ | .clearSegment g' | .info g' | .owner g' => g' = g
  | .segment _ | .done => False

/-- The record that the loop is at. -/
def Sweep.record : Sweep → ℕ
  | .block _ j .. | .clearPage _ j => j
  | .segment _ | .page .. | .clearSegment _ | .info _ | .owner _ | .done => 0

/-- The loop is in a segment that has an owner, at a record of it, and not past the block of a new
client. -/
structure Inv (anchor : ℕ → Anchor) (s : State) : Prop where
  owner : ∀ g, s.sweep.Inside g → s.heap.sasThreadId g ≠ 0
  record : s.sweep.record < pagesPerSegment
  before : ∀ g, Owned s g → s.sweep.Before g (anchor g)

theorem Sweep.before_of_not_inside {g : ℕ} {a : Anchor} {sweep : Sweep} (outside : ¬ sweep.Inside g) :
    sweep.Before g a := by
  cases sweep with
  | segment g' => trivial
  | page g' j => exact fun here => absurd here outside
  | block g' j b last => exact fun here => absurd here outside
  | clearPage g' j => exact outside
  | clearSegment g' => exact outside
  | info g' => exact outside
  | owner g' => exact outside
  | done => trivial

theorem Sweep.not_zeroes_of_before {g : ℕ} {a : Anchor} {sweep : Sweep} (before : sweep.Before g a) :
    ¬ sweep.Zeroes g := by
  cases sweep with
  | segment g' => exact id
  | page g' j => exact id
  | block g' j b last => exact id
  | clearPage g' j => exact before
  | clearSegment g' => exact before
  | info g' => exact id
  | owner g' => exact before
  | done => exact id

/-- A client's step does not take the loop past a block. -/
theorem Inv.client (h : Inv anchor s) (run : step size s act = some s') (client : act ≠ .sweep)
    (anchored : Anchored anchor s act s') : Inv anchor s' := by
  obtain ⟨sweep, owner, registered⟩ := clientStep_of_step run client
  refine ⟨?_, ?_, ?_⟩
  · rw [sweep]
    intro g inside
    rw [owner g (h.owner g inside)]
    exact h.owner g inside
  · rw [sweep]
    exact h.record
  · rw [sweep]
    intro g owned
    by_cases inside : s.sweep.Inside g
    · have same := owner g (h.owner g inside)
      rw [Owned, same] at owned
      rcases registered _ owned.2 with before | now
      · exact h.before g ⟨owned.1, before⟩
      · exact anchored.before _ now g rfl
    · exact Sweep.before_of_not_inside inside

theorem State.owners_clearQueue (s : State) (page b : ℕ) :
    (s.clearQueue page b).heap.sasThreadId = s.heap.sasThreadId ∧
      (s.clearQueue page b).heap.registered = s.heap.registered := by
  rw [State.clearQueue]
  split <;> exact ⟨rfl, rfl⟩

/-- A step of the loop inside the segment that it is in. -/
theorem Inv.advance (h : Inv anchor s) (owner : s'.heap.sasThreadId = s.heap.sasThreadId)
    (registered : s'.heap.registered = s.heap.registered)
    (inside : ∀ g, s'.sweep.Inside g → s.sweep.Inside g)
    (record : s'.sweep.record < pagesPerSegment)
    (before : ∀ g, Owned s g → s'.sweep.Inside g → s.sweep.Before g (anchor g) →
      s'.sweep.Before g (anchor g)) : Inv anchor s' := by
  refine ⟨fun g at_g => ?_, record, fun g owned => ?_⟩
  · rw [owner]
    exact h.owner g (inside g at_g)
  · rw [Owned, owner, registered] at owned
    by_cases at_g : s'.sweep.Inside g
    · exact before g owned at_g (h.before g owned)
    · exact Sweep.before_of_not_inside at_g

/-- The loop leaves its segment, or is done. -/
theorem Inv.leave {g : ℕ} (sweep : s'.sweep = .segment g ∨ s'.sweep = .done) : Inv anchor s' := by
  have some_page : 0 < pagesPerSegment := by decide
  rcases sweep with here | here
  · refine ⟨?_, ?_, ?_⟩ <;> rw [here]
    · exact fun _ => False.elim
    · exact some_page
    · exact fun _ _ => trivial
  · refine ⟨?_, ?_, ?_⟩ <;> rw [here]
    · exact fun _ => False.elim
    · exact some_page
    · exact fun _ _ => trivial

/-- The loop passes a block only by leaving its segment. -/
theorem Inv.sweep (h : Inv anchor s) (run : s.sweepStep = some s')
    (finds : ∀ g, Owned s g → Finds s g (anchor g)) : Inv anchor s' := by
  have some_page : 0 < pagesPerSegment := by decide
  rw [State.sweepStep] at run
  split at run
  · -- between two segments
    split at run
    · obtain rfl := Option.some.inj run
      exact .leave (g := 0) (.inr rfl)
    split at run
    · obtain rfl := Option.some.inj run
      exact .leave (.inl rfl)
    · next g _ _ taken =>
      obtain rfl := Option.some.inj run
      refine ⟨?_, some_page, fun _ _ _ => Nat.zero_le _⟩
      rintro g' rfl
      exact taken
  · -- at a page record
    next g j here =>
    simp only at run
    split at run
    · next behind =>
      obtain rfl := Option.some.inj run
      refine h.advance rfl rfl (fun g' => ?_) some_page ?_
      · rw [here]
        exact id
      · rintro g' owned rfl before
        have found := finds g owned
        rw [Finds, here] at found
        rw [here] at before
        have := before rfl
        have := (found rfl).1
        omega
    split at run
    · next below empty =>
      obtain rfl := Option.some.inj run
      refine h.advance rfl rfl (fun g' => ?_) some_page ?_
      · rw [here]
        exact id
      · rintro g' owned rfl before -
        have found := finds g owned
        rw [Finds, here] at found
        have other : j ≠ (anchor g).page := by
          intro same
          have used := (found rfl).2
          rw [if_pos same] at used
          exact used.1 empty
        rw [here] at before
        have := before rfl
        omega
    · next below used =>
      obtain rfl := Option.some.inj run
      refine h.advance rfl rfl (fun g' => ?_) (Nat.lt_of_not_le below) ?_
      · rw [here]
        exact id
      · rintro g' owned rfl - -
        have found := finds g owned
        rw [Finds, here] at found
        have found := (found rfl).2
        split at found
        · next same => exact ⟨same, found.2⟩
        · exact absurd found used
  · -- at a block
    next g j b last here =>
    have below : j < pagesPerSegment := by
      have record := h.record
      rw [here] at record
      exact record
    simp only at run
    split at run
    · next behind =>
      obtain rfl := Option.some.inj run
      refine h.advance rfl rfl (fun g' => ?_) below ?_
      · rw [here]
        exact id
      · rintro g' owned rfl before
        rw [here] at before
        obtain ⟨-, low, high⟩ := before rfl
        omega
    split at run
    · obtain rfl := Option.some.inj run
      exact .leave (.inl rfl)
    · next dead =>
      obtain rfl := Option.some.inj run
      obtain ⟨owner, registered⟩ := s.owners_clearQueue (metaPage (segmentAt g) j) b
      refine h.advance owner registered (fun g' => ?_) below ?_
      · rw [here]
        exact id
      · rintro g' owned rfl before -
        rw [here] at before
        obtain ⟨page, -, high⟩ := before rfl
        have found := finds g owned
        rw [Finds, here] at found
        have found := found rfl
        split at found
        · exact absurd found dead
        · exact ⟨page, found, high⟩
  -- a segment that is cleared is not a new client's
  · next g j here =>
    obtain rfl := Option.some.inj run
    refine h.advance rfl rfl (fun g' => ?_) some_page ?_
    · rw [here]
      exact id
    · rintro g' - rfl before
      rw [here] at before
      exact absurd rfl before
  · next g here =>
    obtain rfl := Option.some.inj run
    refine h.advance rfl rfl (fun g' => ?_) some_page ?_
    · rw [here]
      exact id
    · rintro g' - rfl before
      rw [here] at before
      exact before
  · next g here =>
    obtain rfl := Option.some.inj run
    refine h.advance rfl rfl (fun g' => ?_) some_page ?_
    · rw [here]
      exact id
    · rintro g' - rfl before
      rw [here] at before
      exact before
  · obtain rfl := Option.some.inj run
    exact .leave (.inl rfl)
  · cases run

theorem inv_of_reachable {s₀ : State} (start : s₀.sweep = .segment 0)
    (reached : Reachable (step size) (Anchored anchor) s₀ s) : Inv anchor s := by
  apply reached.invariant (.leave (.inl start))
  intro s act s' h run anchored
  by_cases monitor : act = .sweep
  · subst monitor
    exact h.sweep run (anchored.finds rfl)
  · exact h.client run monitor anchored

/-! ## What the loop leaves alone -/

theorem State.sameSegment_clearPage {g g' j : ℕ} (other : g' ≠ g) (below : j < pagesPerSegment) :
    SameSegment s (s.clearPage (metaPage (segmentAt g') j)) g := by
  refine ⟨rfl, rfl, rfl, fun k small => ?_⟩
  have page : metaPage (segmentAt g) k ≠ metaPage (segmentAt g') j :=
    fun same => other (metaPage_inj small below same).1.symm
  generalize metaPage (segmentAt g) k = p at page
  generalize metaPage (segmentAt g') j = p' at page
  refine ⟨?_, ?_, ?_, ?_, ?_, ?_, ?_⟩ <;> exact update_of_ne page _ _

/-- The header of another segment does not reach to the records of this one. -/
theorem metaPage_outside {g g' j : ℕ} (other : g' ≠ g) (small : j < pagesPerSegment) :
    ¬ (segmentAt g' ≤ metaPage (segmentAt g) j ∧
      metaPage (segmentAt g) j < segmentAt g' + sizeofSegment) := by
  change j < 1024 at small
  have size : sizeofSegment = 49160 := rfl
  rw [size, metaPage_eq, segmentAt_eq]
  omega

theorem State.sameSegment_clearSegment {g g' : ℕ} (other : g' ≠ g) :
    SameSegment s (s.clearSegment g') g := by
  refine ⟨rfl, update_of_ne other.symm _ _, update_of_ne other.symm _ _, fun j small => ?_⟩
  have page := metaPage_outside other small
  refine ⟨?_, ?_, ?_, ?_, ?_, ?_, ?_⟩ <;> exact if_neg page

theorem State.sameSegment_clearQueue {g page b : ℕ} : SameSegment s (s.clearQueue page b) g := by
  rw [State.clearQueue]
  split <;> exact ⟨rfl, rfl, rfl, fun _ _ => ⟨rfl, rfl, rfl, rfl, rfl, rfl, rfl⟩⟩

/-- What the loop writes to a segment is what it zeroes. -/
theorem sameSegment_of_not_zeroes {g : ℕ} (run : s.sweepStep = some s')
    (record : s.sweep.record < pagesPerSegment) (spared : ¬ s.sweep.Zeroes g) :
    SameSegment s s' g := by
  have idle : ∀ sweep, SameSegment s { s with sweep } g := fun _ =>
    ⟨rfl, rfl, rfl, fun _ _ => ⟨rfl, rfl, rfl, rfl, rfl, rfl, rfl⟩⟩
  have moved : ∀ {r : State} sweep, SameSegment s r g → SameSegment s { r with sweep } g :=
    fun _ same => ⟨same.1, same.2, same.3, same.4⟩
  rw [State.sweepStep] at run
  split at run
  · split at run
    · obtain rfl := Option.some.inj run
      exact idle _
    split at run
    · obtain rfl := Option.some.inj run
      exact idle _
    · obtain rfl := Option.some.inj run
      exact idle _
  · simp only at run
    split at run
    · obtain rfl := Option.some.inj run
      exact idle _
    split at run
    · obtain rfl := Option.some.inj run
      exact idle _
    · obtain rfl := Option.some.inj run
      exact idle _
  · simp only at run
    split at run
    · obtain rfl := Option.some.inj run
      exact idle _
    split at run
    · obtain rfl := Option.some.inj run
      exact idle _
    · obtain rfl := Option.some.inj run
      exact moved _ State.sameSegment_clearQueue
  · next g' j here =>
    rw [here] at record spared
    obtain rfl := Option.some.inj run
    exact moved _ (State.sameSegment_clearPage spared record)
  · next g' here =>
    rw [here] at spared
    obtain rfl := Option.some.inj run
    exact moved _ (State.sameSegment_clearSegment spared)
  · obtain rfl := Option.some.inj run
    exact moved _ ⟨rfl, rfl, rfl, fun _ _ => ⟨rfl, rfl, rfl, rfl, rfl, rfl, rfl⟩⟩
  · next g' here =>
    rw [here] at spared
    obtain rfl := Option.some.inj run
    refine ⟨update_of_ne (Ne.symm spared) _ _, rfl, rfl, fun _ _ => ?_⟩
    exact ⟨rfl, rfl, rfl, rfl, rfl, rfl, rfl⟩
  · cases run

/-- **The segment loop spares the clients that registered behind the first loop**, in every run in which
it finds a live block in each of their segments when it gets there. -/
theorem segmentLoop_spares {s₀ : State} {g : ℕ} (start : s₀.sweep = .segment 0)
    (reached : Reachable (step size) (Anchored anchor) s₀ s) (run : step size s .sweep = some s')
    (owned : Owned s g) : ¬ s.sweep.Zeroes g ∧ SameSegment s s' g := by
  have inv := inv_of_reachable start reached
  have spared := Sweep.not_zeroes_of_before (inv.before g owned)
  exact ⟨spared, sameSegment_of_not_zeroes run inv.record spared⟩

/-! ## The accesses of the loop, one by one -/

section

variable {g j b last : ℕ}

theorem step_segment (here : s.sweep = .segment g) (small : g < maxSegmentNum)
    (taken : s.heap.sasThreadId g ≠ 0) :
    step size s .sweep = some { s with sweep := .page g 0 } := by
  simp only [step, State.sweepStep, here]
  rw [if_neg (Nat.not_le.2 small), if_neg taken]

theorem step_page_unused (here : s.sweep = .page g j) (below : j < pagesPerSegment)
    (unused : s.heap.blockSize (metaPage (segmentAt g) j) = 0) :
    step size s .sweep = some { s with sweep := .page g (j + 1) } := by
  simp only [step, State.sweepStep, here]
  rw [if_neg (Nat.not_le.2 below), if_pos unused]

theorem step_page_used {bs : ℕ} (here : s.sweep = .page g j) (below : j < pagesPerSegment)
    (used : s.heap.blockSize (metaPage (segmentAt g) j) = bs) (pos : bs ≠ 0)
    (start : cxlPageStart (metaPage (segmentAt g) j) = b) :
    step size s .sweep = some { s with sweep := .block g j b (b + (pageSize / bs - 1) * bs) } := by
  simp only [step, State.sweepStep, here, used, start]
  rw [if_neg (Nat.not_le.2 below), if_neg pos]

theorem step_live (here : s.sweep = .block g j b last) (inside : b ≤ last)
    (live : s.live (metaPage (segmentAt g) j) b = true) :
    step size s .sweep = some { s with sweep := .segment (g + 1) } := by
  simp only [step, State.sweepStep, here]
  rw [if_neg (Nat.not_lt.2 inside), if_pos live]

end

/-! ## The accesses of a client that creates a queue -/

section

variable {t e p g n b : ℕ} {k : Kind}

theorem step_threadInit (pos : 1 ≤ t) (vacant : s.heap.registered t = false) :
    step size s (.threadInit t) = some (s.threadInit t) := by
  simp only [step]
  rw [if_pos ⟨pos, vacant⟩]

theorem step_alloc_first (registered : s.heap.registered t = true) (idle : s.pc t = .idle)
    (bin : (Heap.State.queueOf t k).2 ≤ freePage)
    (first : s.heap.first (Heap.State.queueOf t k) = p)
    (has_free : p ≠ 0 ∧ s.heap.free p ≠ 0) :
    step size s (.alloc t k e) = some { s with
      embeddedRefCnt := update s.embeddedRefCnt t e
      pc := update s.pc t (.take k p) } := by
  simp only [step, State.allocStep, first]
  rw [if_pos ⟨registered, idle⟩, if_neg (Nat.not_lt.2 bin), if_pos has_free]

theorem step_take_queue (registered : s.heap.registered t = true)
    (here : s.pc t = .take .msgQueue p) (first : s.heap.free p = b) (pos : b ≠ 0) :
    step size s (.run t g n) = some { s with
      heap.used := update s.heap.used (cxlPtrPage b) (inc32 (s.heap.used (cxlPtrPage b)))
      heap.free := update s.heap.free (cxlPtrPage b) (s.heap.blockNext b)
      heap.allocated := update s.heap.allocated b (some true)
      pc := update s.pc t (.fill .msgQueue b) } := by
  have special : ¬ ((Kind.msgQueue).special = false ∧ s.tbr t ≠ 0) := by
    simp [Kind.special]
  simp only [step, State.runStep, here, State.takeStep]
  rw [if_pos registered, if_neg special, Heap.State.blockTo, first]
  simp only [if_neg pos, if_true]
  rfl

theorem step_fill (registered : s.heap.registered t = true) (here : s.pc t = .fill k b) :
    step size s (.run t g n) = some ((s.fillStep t k b).setPc t .idle) := by
  simp only [step, State.runStep, here]
  rw [if_pos registered]

end

/-- Client 1 owns the first segment, which has one page, a page of queues, and no queue yet; the
loop is about to begin. -/
def noQueueYet : State where
  heap :=
    { Heap.State.init with
      sasThreadId := update (fun _ => 0) 0 1
      registered := update (fun _ => false) 1 true
      first := update (fun _ => 0) (1, 1) 134217784
      blockSize := update (fun _ => 0) 134217784 192
      free := update (fun _ => 0) 134217784 134283264
      blockNext := update (fun _ => 0) 134283264 134283456 }
  isMsgQueuePage := update (fun _ => false) 134217784 true
  era _ := 1
  tbr _ := 0
  embeddedRefCnt _ := 0
  pc _ := .idle
  sweep := .segment 0

/-- Inside the loop client 2 registers and client 1 takes the first block of its page for a queue; the
loop finds the queue and goes on with the next segment. -/
theorem segmentLoop_spares_noQueueYet : ∃ s s',
    Reachable (step (1 <<< 28)) (Anchored fun _ => ⟨1, 134283264⟩) noQueueYet s ∧
      step (1 <<< 28) s .sweep = some s' ∧ s.heap.registered 2 = true ∧ Owned s 0 ∧
      s.sweep = .block 0 1 134283264 134348544 ∧ ¬ s.sweep.Zeroes 0 ∧ SameSegment s s' 0 := by
  let anchor : ℕ → Anchor := fun _ => ⟨1, 134283264⟩
  have only : ∀ {s : State}, s.heap.sasThreadId = update (fun _ => 0) 0 1 →
      ∀ g, s.heap.sasThreadId g ≠ 0 → g = 0 := by
    intro s owners g taken
    by_contra other
    rw [owners, update_of_ne other] at taken
    exact taken rfl
  have sweeps : ∀ {s s'}, s.heap.sasThreadId = update (fun _ => 0) 0 1 → Finds s 0 (anchor 0) →
      Anchored anchor s .sweep s' := by
    intro s s' owners finds
    refine ⟨fun _ g owned => ?_, fun t absurd => Action.noConfusion absurd⟩
    rw [only owners g owned.1]
    exact finds
  have begins : ∀ {s s' t k e}, Anchored anchor s (.alloc t k e) s' :=
    ⟨fun absurd => Action.noConfusion absurd, fun t absurd => Action.noConfusion absurd⟩
  have goes_on : ∀ {s s' t g n}, Anchored anchor s (.run t g n) s' :=
    ⟨fun absurd => Action.noConfusion absurd, fun t absurd => Action.noConfusion absurd⟩
  have registers : ∀ {s s'}, s.heap.sasThreadId = update (fun _ => 0) 0 1 →
      Anchored anchor s (.threadInit 2) s' := by
    intro s s' owners
    refine ⟨fun absurd => Action.noConfusion absurd, fun t init g owner => ?_⟩
    obtain rfl := Action.threadInit.inj init
    have first : g = 0 := only owners g (by rw [owner]; decide)
    rw [first, owners] at owner
    cases owner
  have entered : Reachable (step (1 <<< 28)) (Anchored anchor) noQueueYet _ :=
    .next .start (step_segment rfl (by decide) (by decide)) (sweeps rfl trivial)
  have registered := entered.next (step_threadInit (t := 2) (by decide) (by decide)) (registers rfl)
  have passed := registered.next (step_page_unused rfl (by decide) (by decide +kernel))
    (sweeps rfl fun _ => ⟨by decide, by decide +kernel⟩)
  have began := passed.next
    (step_alloc_first (t := 1) (k := .msgQueue) (e := 0) (p := 134217784) rfl rfl (by decide)
      (by decide +kernel) (by decide +kernel))
    begins
  have opened := began.next
    (step_page_used (b := 134283264) rfl (by decide) (by decide +kernel) (by decide : 192 ≠ 0)
      (by decide +kernel))
    (sweeps rfl fun _ => ⟨by decide, by decide +kernel⟩)
  have took := opened.next
    (step_take_queue (t := 1) (g := 0) (n := 0) (b := 134283264) rfl rfl (by decide +kernel)
      (by decide))
    goes_on
  have filled := took.next (step_fill (t := 1) (g := 0) (n := 0) rfl rfl) goes_on
  refine ⟨_, _, filled, step_live rfl (by decide) (by decide +kernel), rfl, ⟨?_, rfl⟩, rfl, ?_⟩
  · exact Nat.one_ne_zero
  · exact segmentLoop_spares rfl filled (step_live rfl (by decide) (by decide +kernel))
      ⟨Nat.one_ne_zero, rfl⟩

/-! ## A segment without a page -/

/-- Records that have no `block_size` yet are passed one after the other. -/
theorem passes_records {g n : ℕ} (from_n : n ≤ pagesPerSegment) (here : s.sweep = .page g n)
    (empty : ∀ j < pagesPerSegment, s.heap.blockSize (metaPage (segmentAt g) j) = 0) :
    Reachable (step size) (fun _ _ _ => True) s { s with sweep := .clearSegment g } := by
  obtain ⟨m, rest⟩ := Nat.exists_eq_add_of_le from_n
  induction m generalizing n s with
  | zero =>
    refine .next (a := .sweep) .start ?_ trivial
    simp only [step, State.sweepStep, here]
    rw [if_pos (by omega)]
  | succ m ih =>
    have below : n < pagesPerSegment := by omega
    have later := ih (s := { s with sweep := .page g (n + 1) }) below rfl empty (by omega)
    exact (Reachable.next .start (step_page_unused here below (empty n below)) trivial).trans later

/-- A segment whose owner has yet to open its first page is given away. -/
theorem gives_away {g : ℕ} (here : s.sweep = .segment g) (small : g < maxSegmentNum)
    (taken : s.heap.sasThreadId g ≠ 0)
    (empty : ∀ j < pagesPerSegment, s.heap.blockSize (metaPage (segmentAt g) j) = 0) :
    ∃ s', Reachable (step size) (fun _ _ _ => True) s s' ∧ s'.sweep = .owner g ∧
      s'.heap.sasThreadId = s.heap.sasThreadId ∧ s'.heap.registered = s.heap.registered := by
  have passed : Reachable (step size) (fun _ _ _ => True) { s with sweep := .page g 0 }
      { s with sweep := .clearSegment g } :=
    passes_records (Nat.zero_le _) rfl empty
  have entered := (Reachable.next .start (step_segment here small taken) trivial).trans passed
  have cleared := entered.next (a := .sweep) rfl trivial
  exact ⟨_, cleared.next (a := .sweep) rfl trivial, rfl, rfl, rfl⟩

/-- The shared memory before anything is in it. -/
def State.init : State where
  heap := Heap.State.init
  isMsgQueuePage _ := false
  era _ := 0
  tbr _ := 0
  embeddedRefCnt _ := 0
  pc _ := .idle
  sweep := .segment 0

/-- Client 1 registers, asks for a `RootRef`, and has acquired a segment when the loop gets there: the
segment is given away. -/
theorem acquired_given_away : ∃ s s', Reachable (step (1 <<< 28)) (fun _ _ _ => True) State.init s ∧
    step (1 <<< 28) s .sweep = some s' ∧ Owned s 0 ∧ s.sweep.Zeroes 0 ∧
    ¬ SameSegment s s' 0 := by
  have run : (checkedRun (step (1 <<< 28)) (fun _ _ _ => true) State.init
      [.threadInit 1, .alloc 1 .rootRef 0, .run 1 0 0]).any (fun s =>
        decide (s.sweep = .segment 0) && decide (s.heap.sasThreadId 0 = 1) && s.heap.registered 1 &&
          decide (∀ j < pagesPerSegment, s.heap.blockSize (metaPage (segmentAt 0) j) = 0)) = true := by
    decide +kernel
  have sound : ∀ s a s', True → step (1 <<< 28) s a = some s' → true = true → True ∧ True :=
    fun _ _ _ _ _ _ => ⟨trivial, trivial⟩
  obtain ⟨s, reached, here⟩ := exists_reachable_of_checkedRun sound trivial run
  simp only [Bool.and_eq_true, decide_eq_true_eq] at here
  obtain ⟨⟨⟨at_segment, owner⟩, registered⟩, empty⟩ := here
  have given : ∃ s', Reachable (step (1 <<< 28)) (fun _ _ _ => True) s s' ∧ s'.sweep = .owner 0 ∧
      s'.heap.sasThreadId = s.heap.sasThreadId ∧ s'.heap.registered = s.heap.registered :=
    gives_away at_segment (by decide) (by rw [owner]; decide) empty
  obtain ⟨s', later, at_owner, same, still⟩ := given
  have owner' : s'.heap.sasThreadId 0 = 1 := by rw [same, owner]
  have run : step (1 <<< 28) s' .sweep = some { s' with
      heap.sasThreadId := update s'.heap.sasThreadId 0 0
      sweep := .segment 1 } := by
    simp only [step, State.sweepStep, at_owner]
  refine ⟨s', _, reached.trans later, run, ⟨?_, ?_⟩, ?_, ?_⟩
  · rw [owner']
    decide
  · rw [owner', still, registered]
  · rw [at_owner]
    rfl
  · intro spared
    have absurd := spared.owner
    rw [owner'] at absurd
    cases absurd

end CxlShm.SegmentSweep
