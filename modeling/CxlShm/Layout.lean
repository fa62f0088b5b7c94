import Mathlib.Data.Nat.Notation

/-!
# Layout of the shared memory

The constants of the shared area.  An object, a page record or a location is named by its offset
from the start of the area, and offset `0` is the null reference.
-/

namespace CxlShm

/-- A byte offset from the start of the shared memory; `0` is null. -/
abbrev Offset := ℕ

/-- `INTPTR_SHIFT`. -/
def intptrShift : ℕ := 3

/-- `PAGE_SHIFT`: pages of 64 KiB. -/
def pageShift : ℕ := 13 + intptrShift

/-- `SEGMENT_SHIFT`: segments of 64 MiB. -/
def segmentShift : ℕ := 10 + pageShift

/-- `PAGE_SIZE`. -/
def pageSize : ℕ := 1 <<< pageShift

/-- `SEGMENT_SIZE`. -/
def segmentSize : ℕ := 1 <<< segmentShift

/-- `PAGES_PER_SEGMENT`. -/
def pagesPerSegment : ℕ := segmentSize / pageSize

/-- `SEGMENTS_AREA_START`. -/
def segmentsAreaStart : ℕ := 1 <<< 27

/-- `HASH_TABLE_START`. -/
def hashTableStart : ℕ := 1 <<< 26

/-- `HASH_TABLE_SIZE`: the bytes of one partition of the table. -/
def hashTableSize : ℕ := 1 <<< 20

/-- `MAX_THREAD`: rows and columns of the era array. -/
def maxThread : ℕ := 1024

/-- `THREAD_LOCAL_VEC_START`. -/
def threadLocalVecStart : ℕ := 8 <<< 20

/-- `sizeof(cxl_thread_local_state_t)`. -/
def sizeofThreadLocalState : ℕ := 2176

/-- `REDO_CACHELINE_CNT`: entries of a client's redo log. -/
def redoCachelineCnt : ℕ := 8

/-- `MESSAGE_BUFFER_SIZE`: slots of a message queue. -/
def messageBufferSize : ℕ := 16

/-- `sizeof(CXLObj)`. -/
def sizeofCXLObj : ℕ := 24

/-- `cxl_ptr_segment` followed by the division that indexes the segment allocation states. -/
def segmentIndex (p : Offset) : ℕ := (p / segmentSize * segmentSize - segmentsAreaStart) / segmentSize

/-- `cxl_ptr_page`, as the index of the page in its segment. -/
def pageIndex (p : Offset) : ℕ := p % segmentSize / pageSize

/-- The state of a segment. -/
inductive SegmentState
  | normal
  | potentialLeaking
  | abandon
  deriving DecidableEq, Repr

/-- `state_free_info`: the word of a segment allocation state that is exchanged as a whole. -/
structure StateFreeInfo where
  state : SegmentState
  threadFree : Offset
  deriving DecidableEq, Repr

end CxlShm
