import CxlShm.Alloc.Addresses
import CxlShm.Alloc.Heap
import Mathlib.Data.Set.Defs
import Mathlib.Tactic.SplitIfs

/-!
# The geometry of blocks

The blocks of a page lie one after the other from the start of the page on, as many as fit; what is
left over at the end belongs to no block.  From a byte of a block one finds back the segment by
rounding down, the page record by a shift and a multiplication, and the number of the block by a
division.
-/

namespace CxlShm

open Heap

/-- `cxl_page_start`, with the pointer difference `page - segment->meta_page` in records. -/
def cxlPageStartIn (segment page : ℕ) : ℕ :=
  segment + (page - (segment + metaPageStart)) / sizeofPage * pageSize

/-- `cxl_page_block_at` -/
def cxlPageBlockAt (pageStart blockSize i : ℕ) : ℕ := pageStart + i * blockSize

/-- An address in the 64 KiB of a page leads to its record. -/
theorem IsPage.cxlPtrPage_of_mem {page x : ℕ} (h : IsPage page) (lower : cxlPageStart page ≤ x)
    (upper : x < cxlPageStart page + pageSize) : cxlPtrPage x = page := by
  have split := h.cxlPtrPage_add (x := x - cxlPageStart page) (Nat.sub_lt_left_of_lt_add lower upper)
  rwa [Nat.add_sub_cancel' lower] at split

/-! ## The sizes of blocks -/

/-- The size of the blocks of a bin: of a `RootRef`, of a message queue, or a multiple of 16. -/
theorem initBlockSize_bin (i : Fin cxlBinSize) :
    16 ≤ initBlockSize i ∧ initBlockSize i ≤ 1024 := by
  obtain ⟨i, hi⟩ := i
  change i < 66 at hi
  change 16 ≤ initBlockSize i ∧ initBlockSize i ≤ 1024
  rw [initBlockSize]
  split_ifs with _ _ bin
  · decide
  · decide
  · omega
  · exact absurd hi bin

/-! ## Blocks -/

/-- Where a block is: the segment, the page in it, and the number of the block in the page, when
`bin` says of which bin each page is. -/
@[ext]
structure Place (bin : ℕ → ℕ → Fin cxlBinSize) where
  segment : ℕ
  page : ℕ
  index : ℕ
  page_pos : 1 ≤ page
  page_lt : page < pagesPerSegment
  index_lt : index < pageSize / initBlockSize (bin segment page)

namespace Place

variable {bin : ℕ → ℕ → Fin cxlBinSize} (b : Place bin)

/-- The size of the block. -/
def size : ℕ := initBlockSize (bin b.segment b.page)

/-- Where the block starts. -/
def start : ℕ :=
  cxlPageBlockAt (cxlPageStartIn (segmentAt b.segment) (metaPage (segmentAt b.segment) b.page))
    b.size b.index

/-- The bytes of the block. -/
def bytes : Set ℕ := {x | b.start ≤ x ∧ x < b.start + b.size}

variable {b} {b' : Place bin} {x : ℕ}

theorem size_pos : 0 < b.size := by
  have bound := (initBlockSize_bin (bin b.segment b.page)).1
  change 16 ≤ b.size at bound
  omega

theorem start_eq :
    b.start = 134217728 + 67108864 * b.segment + 65536 * b.page + b.index * b.size := by
  have index : (metaPage (segmentAt b.segment) b.page - (segmentAt b.segment + metaPageStart)) /
      sizeofPage = b.page := by
    rw [metaPage, Nat.add_sub_cancel_left]
    exact Nat.mul_div_cancel _ (by decide)
  have step : b.page * pageSize = 65536 * b.page := Nat.mul_comm _ _
  rw [start, cxlPageBlockAt, cxlPageStartIn, index, step, segmentAt_eq]

/-- The last block ends in the page. -/
theorem end_le : b.index * b.size + b.size ≤ 65536 := by
  have fits := Nat.mul_le_of_le_div b.size (b.index + 1) pageSize b.index_lt
  rwa [Nat.add_one_mul] at fits

/-- A byte of the block is at some distance from the start of the page. -/
theorem exists_offset (h : x ∈ b.bytes) : ∃ y, y < b.size ∧ b.index * b.size + y < 65536 ∧
    x = 134217728 + 67108864 * b.segment + 65536 * b.page + (b.index * b.size + y) := by
  obtain ⟨lower, upper⟩ := h
  have ends := b.end_le
  rw [b.start_eq] at lower upper
  refine ⟨x - (134217728 + 67108864 * b.segment + 65536 * b.page + b.index * b.size), ?_⟩
  omega

/-- The block lies in its page. -/
theorem in_page (h : x ∈ b.bytes) : segmentAt b.segment + b.page * pageSize ≤ x ∧
    x < segmentAt b.segment + (b.page + 1) * pageSize := by
  obtain ⟨y, -, inside, rfl⟩ := exists_offset h
  have step : b.page * pageSize = 65536 * b.page := Nat.mul_comm _ _
  have next : (b.page + 1) * pageSize = 65536 * b.page + 65536 := by
    rw [Nat.add_one_mul, step]
    rfl
  rw [step, next, segmentAt_eq]
  omega

/-- No byte of the block is in the header of its segment. -/
theorem after_header (h : x ∈ b.bytes) : segmentAt b.segment + sizeofSegment ≤ x := by
  have first := Nat.mul_le_mul_right pageSize b.page_pos
  have header : sizeofSegment ≤ 1 * pageSize := by decide
  have lower := (in_page h).1
  omega

theorem cxlPtrSegment_eq (h : x ∈ b.bytes) : cxlPtrSegment x = segmentAt b.segment := by
  obtain ⟨y, -, inside, rfl⟩ := exists_offset h
  have page := b.page_lt
  change _ < 1024 at page
  rw [CxlShm.cxlPtrSegment_eq, segmentAt_eq]
  omega

theorem cxlPtrPage_eq (h : x ∈ b.bytes) :
    cxlPtrPage x = metaPage (segmentAt b.segment) b.page := by
  obtain ⟨y, -, inside, rfl⟩ := exists_offset h
  have page := b.page_lt
  change _ < 1024 at page
  rw [CxlShm.cxlPtrPage_eq, metaPage_eq]
  omega

/-- The number of the block is the quotient of the distance. -/
theorem index_eq (h : x ∈ b.bytes) :
    (x - (segmentAt b.segment + b.page * pageSize)) / b.size = b.index := by
  obtain ⟨y, small, -, rfl⟩ := exists_offset h
  have step : b.page * pageSize = 65536 * b.page := Nat.mul_comm _ _
  rw [step, segmentAt_eq, Nat.add_sub_cancel_left, Nat.add_comm, Nat.mul_comm,
    Nat.add_mul_div_left _ _ b.size_pos, Nat.div_eq_of_lt small, Nat.zero_add]

/-- A byte is in one block only. -/
theorem eq_of_mem (h : x ∈ b.bytes) (h' : x ∈ b'.bytes) : b = b' := by
  have record := (cxlPtrPage_eq h).symm.trans (cxlPtrPage_eq h')
  obtain ⟨segment, page⟩ := metaPage_inj b.page_lt b'.page_lt record
  have size : b.size = b'.size := by
    rw [Place.size, segment, page]
    rfl
  have index : b.index = b'.index := by
    rw [← index_eq h, ← index_eq h', segment, page, size]
  exact Place.ext segment page index

end Place

/-- The blocks of all segments: each lies in its page and behind the header of its segment, every
byte of it leads back to the segment and the record of the page, and two blocks have no byte in
common. -/
theorem block_geometry (bin : ℕ → ℕ → Fin cxlBinSize) (b : Place bin) :
    (∀ x ∈ b.bytes, segmentAt b.segment + b.page * pageSize ≤ x ∧
        x < segmentAt b.segment + (b.page + 1) * pageSize ∧
        segmentAt b.segment + sizeofSegment ≤ x ∧
        cxlPtrSegment x = segmentAt b.segment ∧
        cxlPtrPage x = metaPage (segmentAt b.segment) b.page) ∧
      ∀ b' : Place bin, b' ≠ b → ∀ x ∈ b'.bytes, x ∉ b.bytes := by
  constructor
  · intro x h
    obtain ⟨lower, upper⟩ := Place.in_page h
    exact ⟨lower, upper, Place.after_header h, Place.cxlPtrSegment_eq h, Place.cxlPtrPage_eq h⟩
  · intro b' other x here again
    exact other (Place.eq_of_mem here again)

/-- The second block of the first page, if its blocks have 48 bytes. -/
example : (⟨0, 1, 1, by decide, by decide, by decide⟩ : Place fun _ _ => ⟨4, by decide⟩).start =
    134283264 + 48 := by
  decide

end CxlShm
