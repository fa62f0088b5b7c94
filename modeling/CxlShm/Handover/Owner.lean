import CxlShm.Alloc.Pages
import CxlShm.Handover.Control
import CxlShm.Handover.Moves

/-!
# What the segment holds

While its owner runs, a segment is in order: every block belongs to a page of one of the owner's
queues, and the counters count.  When the owner is gone, the objects that are left lie in pages
whose records are still there, and the monitor does not pass one by.
-/

namespace CxlShm.Handover

open Linked Function Heap Counting

/-- Blocks with this flag may lie in the bin: `RootRef`s in bin 0, objects in those from 3 on. -/
def Fits (special : Bool) (bin : Option ℕ) : Prop :=
  if special then bin = some 0 else ∃ i, 3 ≤ i ∧ bin = some i

/-- What is in use may lie in the bin. -/
def Place.Suits : Place → Option ℕ → Prop
  | .object, bin => Fits false bin
  | .root _, bin => Fits true bin
  | .outside, _ | .listed _, _ | .held _, _ | .lost, _ => True

/-- The page is in a bin. -/
def Taken (bin : Option ℕ) : Prop := ∃ i, bin = some i

@[simp] theorem taken_some {i : ℕ} : Taken (some i) := ⟨i, rfl⟩

@[simp] theorem not_taken_none : ¬ Taken none := by rintro ⟨i, ⟨⟩⟩

/-- The page that is in no queue for the moment. -/
def Pc.moving : Pc → Option ℕ
  | .pushPage _ page | .clearPage page => some page
  | _ => none

/-- What the owner relies on at its next access; `bin` says which bin a page is in. -/
def Pc.Todo (bin : ℕ → Option ℕ) (used : ℕ → ℕ) : Pc → Prop
  | .pushPage i page => bin page = some i ∧ used page = 0
  | .storeBlock i b _ => bin (cxlPtrPage b) = some i
  | .memset b special | .loadThreadId b special | .freeLocal b special =>
    Fits special (bin (cxlPtrPage b))
  | .walk page _ exit => exit = true → Fits false (bin page)
  | .loadUsed page => Fits false (bin page)
  | .removePage page special => Fits special (bin page) ∧ used page = 0
  | .clearPage page => Taken (bin page) ∧ used page = 0
  | .pushFreePages | .clearSegment => ∀ page, bin page = none
  | _ => True

/-- The segment in the hands of its owner. -/
structure Owned (g : ℕ) (bin : ℕ → Option ℕ) (place : Offset → Place) (s : State) : Prop where
  page : ∀ p i, bin p = some i → IsPage p ∧ segmentIndex p = g ∧ (i < cxlBinSize ∧ i ≠ 2) ∧
    s.blockSize p = initBlockSize i ∧ s.isMsgQueuePage p = decide (i = 1)
  block : ∀ b, place b ≠ .outside ↔ ∃ i, bin (cxlPtrPage b) = some i ∧ InPage (cxlPtrPage b) i b
  suits : ∀ b, (place b).Suits (bin (cxlPtrPage b))
  used : ∀ page, s.used page = countAt cxlPtrPage page Place.Counted place
  queue : ∀ page i, page ∈ s.pages s.segmentThreadId i ↔
    bin page = some i ∧ (s.pc s.segmentThreadId).moving ≠ some page
  nodup : ∀ i, (s.pages s.segmentThreadId i).Nodup
  segmentUsed : s.segmentUsed = countAt segmentIndex g Taken bin
  free : ∀ page ∈ s.freePage s.segmentThreadId,
    IsPage page ∧ segmentIndex page = g ∧ bin page = none
  once : (s.freePage s.segmentThreadId).Nodup
  begin : s.pc s.segmentThreadId = .pushFreePages → s.freePage s.segmentThreadId = []
  todo : (s.pc s.segmentThreadId).Todo bin s.used

/-- The records of the segment lead to the block. -/
def Recorded (g : ℕ) (s : State) (b : Offset) : Prop :=
  let page := cxlPtrPage b
  page ∈ segmentPages g ∧ s.isMsgQueuePage page = false ∧
    b ∈ blocksFrom (s.blockSize page) (pageSize / s.blockSize page) (cxlPageStart page)

/-- The monitor will still come to the object, or has seen that there is one. -/
def Monitor.Ahead (owner : ℕ) (state : SegmentState) (b : Offset) : Monitor → Prop
  | .page t rest => t = owner → state = .abandon ∨ cxlPtrPage b ∈ rest
  | .scan t p blocks rest => t = owner →
    if cxlPtrPage b = p then b ∈ blocks else state = .abandon ∨ cxlPtrPage b ∈ rest
  | .clearPage t p rest => t = owner →
    cxlPtrPage b ≠ p ∧ (state = .abandon ∨ cxlPtrPage b ∈ rest)
  | .segment t => t = owner → state = .abandon
  | .clearSegment t => t ≠ owner
  | .loopPage rest => cxlPtrPage b ∈ rest
  | .loopScan p blocks rest => if cxlPtrPage b = p then b ∈ blocks else cxlPtrPage b ∈ rest
  | .loopClearPage p rest => cxlPtrPage b ≠ p ∧ cxlPtrPage b ∈ rest
  | .loopClearSegment => False
  | .idle | .sweep _ | .memset _ _ | .loadThreadId _ _ | .load _ _ | .storeNext _ _ _ | .cas _ _ _
  | .abandon _ _ | .release _ | .freeTls _ | .loopStoreInfo | .loopRelease => True

/-- What is left in the segment when its owner is gone. -/
structure Remains (g : ℕ) (place : Offset → Place) (s : State) : Prop where
  recorded : ∀ b, place b = .object → Recorded g s b
  ahead : ∀ b, place b = .object → s.monitor.Ahead s.segmentThreadId s.info.state b
  queued : s.slot s.segmentThreadId = .stopped → ∀ b, place b = .object →
    cxlPtrPage b ∈ s.objectPages s.segmentThreadId
  apart : s.slot s.segmentThreadId = .stopped → ∀ b, place b = .object →
    cxlPtrPage b ∉ s.pages s.segmentThreadId 0
  head : s.slot s.segmentThreadId = .stopped → ∀ page, place (s.free page) ≠ .object

/-- The invariant. -/
structure Inv (g : ℕ) (bin : ℕ → Option ℕ) (place : Offset → Place) (s : State) : Prop where
  places : Places place s
  control : Control s
  owned : s.Kept → Owned g bin place s
  remains : ¬ s.Kept → Remains g place s

/-! ## Bins -/

theorem Fits.taken {special : Bool} {i : Option ℕ} (h : Fits special i) : Taken i := by
  cases special with
  | true => exact ⟨0, h⟩
  | false =>
    obtain ⟨k, -, in_bin⟩ := h
    exact ⟨k, in_bin⟩

theorem Fits.bin {special : Bool} {i : ℕ} (h : Fits special (some i)) (bin : i < cxlBinSize) :
    cxlPageQueue special (initBlockSize i) = i := by
  cases special with
  | true =>
    obtain rfl : i = 0 := Option.some.inj h
    decide
  | false =>
    obtain ⟨k, low, same⟩ : ∃ k, 3 ≤ k ∧ some i = some k := h
    obtain rfl := Option.some.inj same
    have size : initBlockSize i = 16 * (i - 1) := by
      rw [initBlockSize, if_neg (by omega), if_neg (by omega), if_pos bin]
    rw [cxlBinSize] at bin
    rw [size, cxlPageQueue_obj (by omega) (by omega)]
    omega

/-! ## Steps that leave the records as they are -/

/-- The two states agree on the records and the queues of pages. -/
structure SameRecords (s s' : State) : Prop extends SameOwner s s' where
  segmentUsed : s'.segmentUsed = s.segmentUsed
  blockSize : s'.blockSize = s.blockSize
  used : s'.used = s.used
  isMsgQueuePage : s'.isMsgQueuePage = s.isMsgQueuePage
  pages : s'.pages = s.pages
  freePage : s'.freePage = s.freePage

variable {g t : ℕ} {bin : ℕ → Option ℕ} {place place' : Offset → Place} {s s' : State} {p : Pc}
  {m : Monitor} {b : Offset} {v : Place}

theorem SameOwner.kept (same : SameOwner s s') : s'.Kept ↔ s.Kept := by
  unfold State.Kept
  rw [same.slot, same.segmentThreadId]

/-- Blocks may move, as long as none comes or goes. -/
theorem Owned.keep (h : Owned g bin place s) (header : s'.segmentThreadId = s.segmentThreadId)
    (segmentUsed : s'.segmentUsed = s.segmentUsed) (blockSize : s'.blockSize = s.blockSize)
    (used : s'.used = s.used) (isMsgQueuePage : s'.isMsgQueuePage = s.isMsgQueuePage)
    (pages : s'.pages s.segmentThreadId = s.pages s.segmentThreadId)
    (freePage : s'.freePage s.segmentThreadId = s.freePage s.segmentThreadId)
    (inside : ∀ b, place' b ≠ .outside ↔ place b ≠ .outside)
    (counted : ∀ b, (place' b).Counted ↔ (place b).Counted)
    (suits : ∀ b, (place' b).Suits (bin (cxlPtrPage b)))
    (moving : (s'.pc s.segmentThreadId).moving = (s.pc s.segmentThreadId).moving)
    (begin : s'.pc s.segmentThreadId = .pushFreePages → s.pc s.segmentThreadId = .pushFreePages)
    (todo : (s'.pc s.segmentThreadId).Todo bin s.used) : Owned g bin place' s' := by
  refine ⟨?_, ?_, suits, ?_, ?_, ?_, ?_, ?_, ?_, ?_, ?_⟩
  · rw [blockSize, isMsgQueuePage]
    exact h.page
  · intro b
    rw [inside]
    exact h.block b
  · intro page
    rw [used, h.used]
    exact countAt_congr fun b _ => (counted b).symm
  · rw [header, pages, moving]
    exact h.queue
  · rw [header, pages]
    exact h.nodup
  · rw [segmentUsed]
    exact h.segmentUsed
  · rw [header, freePage]
    exact h.free
  · rw [header, freePage]
    exact h.once
  · rw [header, freePage]
    exact fun at_begin => h.begin (begin at_begin)
  · rw [used, header]
    exact todo

theorem Remains.keep (h : Remains g place s) (same : SameRecords s s')
    (objects : ∀ b, place' b = .object → place b = .object) (free : s'.free = s.free)
    (ahead : ∀ b, place' b = .object → s'.monitor.Ahead s.segmentThreadId s'.info.state b) :
    Remains g place' s' := by
  refine ⟨?_, ?_, ?_, ?_, ?_⟩
  · intro b at_b
    have recorded := h.recorded b (objects b at_b)
    rw [Recorded, same.isMsgQueuePage, same.blockSize]
    exact recorded
  · rw [same.segmentThreadId]
    exact ahead
  · intro stopped b at_b
    rw [same.segmentThreadId, same.slot] at stopped
    have queued := h.queued stopped b (objects b at_b)
    rw [State.objectPages, same.segmentThreadId, same.pages]
    exact queued
  · intro stopped b at_b
    rw [same.segmentThreadId, same.slot] at stopped
    rw [same.segmentThreadId, same.pages]
    exact h.apart stopped b (objects b at_b)
  · intro stopped page at_head
    rw [same.segmentThreadId, same.slot] at stopped
    rw [free] at at_head
    exact h.head stopped page (objects _ at_head)

namespace Inv

/-- A step of a client that leaves the records as they are. -/
theorem client (h : Inv g bin place s) (pc : s'.pc = update s.pc t p) (same : SameRecords s s')
    (monitor : s'.monitor = s.monitor) (places : Places place' s')
    (running : s.slot t = .running) (taking : ¬ p.Taking) (owning : p.Owning → s.segmentThreadId = t)
    (chain : s.segmentThreadId = 0 → s'.info.threadFree = s.info.threadFree)
    (quiet : ¬ s.Kept → s'.info.state = s.info.state ∧ s'.free = s.free ∧ s'.localFree = s.localFree)
    (inside : ∀ b, place' b ≠ .outside ↔ place b ≠ .outside)
    (counted : ∀ b, (place' b).Counted ↔ (place b).Counted)
    (suits : s.Kept → ∀ b, (place' b).Suits (bin (cxlPtrPage b)))
    (objects : ¬ s.Kept → ∀ b, place' b = .object → place b = .object)
    (moving : p.moving = (s.pc t).moving) (begin : p ≠ .pushFreePages)
    (todo : s.Kept → s.segmentThreadId = t → p.Todo bin s.used) : Inv g bin place' s' := by
  refine ⟨places, ?_, ?_, ?_⟩
  · refine h.control.client pc same.toSameOwner monitor running taking owning chain ?_ ?_ ?_
    · intro none
      have not_kept : ¬ s.Kept := fun kept => h.control.owned_of_kept kept none
      obtain ⟨-, free, localFree⟩ := quiet not_kept
      exact ⟨same.segmentUsed, same.used, free, localFree⟩
    · intro u i page mem
      rw [same.pages] at mem
      exact .inl mem
    · intro u page mem
      rw [same.freePage] at mem
      exact .inl mem
  · intro kept
    rw [same.kept] at kept
    refine (h.owned kept).keep same.segmentThreadId same.segmentUsed same.blockSize same.used
      same.isMsgQueuePage (by rw [same.pages]) (by rw [same.freePage]) inside counted (suits kept)
      ?_ ?_ ?_
    · by_cases here : s.segmentThreadId = t
      · rw [pc, here, update_self, moving]
      · rw [pc, update_of_ne here]
    · by_cases here : s.segmentThreadId = t
      · rw [pc, here, update_self]
        exact fun absurd => (begin absurd).elim
      · rw [pc, update_of_ne here]
        exact id
    · by_cases here : s.segmentThreadId = t
      · rw [pc, here, update_self]
        exact todo kept here
      · rw [pc, update_of_ne here]
        exact (h.owned kept).todo
  · intro not_kept
    rw [same.kept] at not_kept
    obtain ⟨state, free, -⟩ := quiet not_kept
    refine (h.remains not_kept).keep same (objects not_kept) free ?_
    intro b at_b
    rw [monitor, state]
    exact (h.remains not_kept).ahead b (objects not_kept b at_b)

/-- A step of a client that moves no block. -/
theorem stay (h : Inv g bin place s) (pc : s'.pc = update s.pc t p) (same : SameRecords s s')
    (monitor : s'.monitor = s.monitor) (places : Places place s')
    (running : s.slot t = .running) (taking : ¬ p.Taking) (owning : p.Owning → s.segmentThreadId = t)
    (info : s'.info = s.info) (free : s'.free = s.free) (localFree : s'.localFree = s.localFree)
    (moving : p.moving = (s.pc t).moving) (begin : p ≠ .pushFreePages)
    (todo : s.Kept → s.segmentThreadId = t → p.Todo bin s.used) : Inv g bin place s' :=
  h.client pc same monitor places running taking owning (fun _ => by rw [info])
    (fun _ => ⟨by rw [info], free, localFree⟩) (fun _ => Iff.rfl) (fun _ => Iff.rfl)
    (fun kept => (h.owned kept).suits) (fun _ _ => id) moving begin todo

/-- A step of a client that moves one block. -/
theorem move (h : Inv g bin place s) (pc : s'.pc = update s.pc t p) (same : SameRecords s s')
    (monitor : s'.monitor = s.monitor) (places : Places (update place b v) s')
    (running : s.slot t = .running) (taking : ¬ p.Taking) (owning : p.Owning → s.segmentThreadId = t)
    (state : s'.info.state = s.info.state) (free : s'.free = s.free)
    (localFree : s'.localFree = s.localFree) (old : (place b).Counted) (new : v.Counted)
    (suits : s.Kept → v.Suits (bin (cxlPtrPage b)))
    (objects : ¬ s.Kept → v = .object → place b = .object)
    (moving : p.moving = (s.pc t).moving) (begin : p ≠ .pushFreePages)
    (todo : s.Kept → s.segmentThreadId = t → p.Todo bin s.used) :
    Inv g bin (update place b v) s' := by
  have inside : ∀ w : Place, w.Counted → w ≠ .outside := by
    rintro w counted rfl
    exact counted
  refine h.client pc same monitor places running taking owning ?_
    (fun _ => ⟨state, free, localFree⟩) ?_ ?_ ?_ ?_ moving begin todo
  · intro none
    exact absurd none (h.places.owned (inside _ old))
  · intro x
    by_cases here : x = b
    · subst here
      rw [update_self]
      exact iff_of_true (inside _ new) (inside _ old)
    · rw [update_of_ne here]
  · intro x
    by_cases here : x = b
    · subst here
      rw [update_self]
      exact iff_of_true new old
    · rw [update_of_ne here]
  · intro kept x
    by_cases here : x = b
    · subst here
      rw [update_self]
      exact suits kept
    · rw [update_of_ne here]
      exact (h.owned kept).suits x
  · intro not_kept x
    by_cases here : x = b
    · subst here
      rw [update_self]
      exact objects not_kept
    · rw [update_of_ne here]
      exact id

end Inv

end CxlShm.Handover
