import CxlShm.Layout

/-!
# Addresses of pages and blocks

A segment begins with its header, which holds a record for each of its pages; the blocks of page `i`
lie in the `i`-th 64 KiB of the segment, and page 0 is the header itself.  So the record of the page
that a block lies in is found from the block's offset, and the other way round.
-/

namespace CxlShm

/-- `sizeof(cxl_page_t)`. -/
def sizeofPage : ℕ := 48

/-- `offsetof(cxl_segment_t, meta_page)`. -/
def metaPageStart : ℕ := 8

/-- `sizeof(cxl_segment_t)`. -/
def sizeofSegment : ℕ := metaPageStart + sizeofPage * pagesPerSegment

/-- The offset of segment `g`. -/
def segmentAt (g : ℕ) : ℕ := segmentsAreaStart + g * segmentSize

/-- `&segment->meta_page[i]` -/
def metaPage (segment i : ℕ) : ℕ := segment + metaPageStart + i * sizeofPage

/-- `cxl_ptr_segment` -/
def cxlPtrSegment (p : ℕ) : ℕ := p / segmentSize * segmentSize

/-- `cxl_ptr_page`, with `cxl_segment_page_of`. -/
def cxlPtrPage (p : ℕ) : ℕ :=
  metaPage (cxlPtrSegment p) ((p - cxlPtrSegment p) / pageSize)

/-- `cxl_page_start` of the page's own segment. -/
def cxlPageStart (page : ℕ) : ℕ :=
  cxlPtrSegment page + (page - cxlPtrSegment page - metaPageStart) / sizeofPage * pageSize

/-- A record that stands for a page of blocks: every one but the first of a segment. -/
def IsPage (page : ℕ) : Prop :=
  ∃ g i, 1 ≤ i ∧ i < pagesPerSegment ∧ page = metaPage (segmentAt g) i

variable {g g' i j x page : ℕ}

/-! Literals stand on the left of a product: `omega` is slow on the other order. -/

theorem segmentAt_eq (g : ℕ) : segmentAt g = 134217728 + 67108864 * g := by
  rw [segmentAt, Nat.mul_comm]
  rfl

theorem metaPage_eq (g i : ℕ) : metaPage (segmentAt g) i = 134217736 + 67108864 * g + 48 * i := by
  rw [metaPage, segmentAt_eq, Nat.mul_comm i, metaPageStart, sizeofPage]
  omega

theorem cxlPtrSegment_eq (p : ℕ) : cxlPtrSegment p = 67108864 * (p / 67108864) := by
  rw [cxlPtrSegment, Nat.mul_comm]
  rfl

theorem segmentIndex_eq (p : ℕ) : segmentIndex p = p / 67108864 - 2 := by
  have same : segmentIndex p = (67108864 * (p / 67108864) - 134217728) / 67108864 := by
    rw [segmentIndex, Nat.mul_comm]
    rfl
  omega

theorem cxlPtrPage_eq (p : ℕ) :
    cxlPtrPage p = 67108864 * (p / 67108864) + 8 + 48 * (p % 67108864 / 65536) := by
  have offset : p - 67108864 * (p / 67108864) = p % 67108864 := by omega
  rw [cxlPtrPage, metaPage, cxlPtrSegment_eq, offset, Nat.mul_comm _ sizeofPage]
  rfl

theorem cxlPageStart_eq (p : ℕ) :
    cxlPageStart p = 67108864 * (p / 67108864) + 65536 * ((p % 67108864 - 8) / 48) := by
  have offset : p - 67108864 * (p / 67108864) = p % 67108864 := by omega
  rw [cxlPageStart, cxlPtrSegment_eq, offset, Nat.mul_comm _ pageSize]
  rfl

theorem metaPage_ne_zero : metaPage (segmentAt g) i ≠ 0 := by
  rw [metaPage_eq]
  omega

theorem segmentIndex_metaPage (hi : i < pagesPerSegment) :
    segmentIndex (metaPage (segmentAt g) i) = g := by
  change i < 1024 at hi
  rw [segmentIndex_eq, metaPage_eq]
  omega

theorem metaPage_inj (hi : i < pagesPerSegment) (hj : j < pagesPerSegment)
    (same : metaPage (segmentAt g) i = metaPage (segmentAt g') j) : g = g' ∧ i = j := by
  have segment : g = g' := by
    rw [← segmentIndex_metaPage (g := g) hi, same, segmentIndex_metaPage hj]
  subst segment
  rw [metaPage_eq, metaPage_eq] at same
  omega

theorem cxlPageStart_metaPage (hi : i < pagesPerSegment) :
    cxlPageStart (metaPage (segmentAt g) i) = 134217728 + 67108864 * g + 65536 * i := by
  change i < 1024 at hi
  rw [cxlPageStart_eq, metaPage_eq]
  omega

theorem IsPage.ne_zero (h : IsPage page) : page ≠ 0 := by
  obtain ⟨g, i, -, -, rfl⟩ := h
  exact metaPage_ne_zero

theorem IsPage.eq_metaPage (h : IsPage page) :
    ∃ k, 1 ≤ k ∧ k < pagesPerSegment ∧ page = metaPage (segmentAt (segmentIndex page)) k := by
  obtain ⟨g, k, from_one, hk, rfl⟩ := h
  exact ⟨k, from_one, hk, by rw [segmentIndex_metaPage hk]⟩

/-- An address in the 64 KiB of a page leads to its record. -/
theorem IsPage.cxlPtrPage_add (h : IsPage page) (inside : x < pageSize) :
    cxlPtrPage (cxlPageStart page + x) = page := by
  obtain ⟨g, i, -, hi, rfl⟩ := h
  rw [cxlPageStart_metaPage hi, cxlPtrPage_eq, metaPage_eq]
  change i < 1024 at hi
  change x < 65536 at inside
  omega

theorem IsPage.segmentIndex_add (h : IsPage page) (inside : x < pageSize) :
    segmentIndex (cxlPageStart page + x) = segmentIndex page := by
  obtain ⟨g, i, -, hi, rfl⟩ := h
  rw [segmentIndex_metaPage hi, cxlPageStart_metaPage hi, segmentIndex_eq]
  change i < 1024 at hi
  change x < 65536 at inside
  omega

theorem IsPage.cxlPageStart_pos (h : IsPage page) : 0 < cxlPageStart page := by
  obtain ⟨g, i, -, hi, rfl⟩ := h
  rw [cxlPageStart_metaPage hi]
  omega

/-- Only an address in the 64 KiB of a page leads to its record. -/
theorem IsPage.of_cxlPtrPage (h : IsPage page) (here : cxlPtrPage x = page) :
    cxlPageStart page ≤ x ∧ x < cxlPageStart page + pageSize := by
  obtain ⟨g, i, first, hi, rfl⟩ := h
  have index : x % 67108864 / 65536 < pagesPerSegment := by
    change _ < 1024
    omega
  have before : 2 ≤ x / 67108864 := by
    change _ < 1024 at index
    rw [cxlPtrPage_eq, metaPage_eq] at here
    have bound := Nat.le_of_eq here.symm
    clear here
    omega
  have record : cxlPtrPage x =
      metaPage (segmentAt (x / 67108864 - 2)) (x % 67108864 / 65536) := by
    rw [cxlPtrPage_eq, metaPage_eq]
    omega
  rw [record] at here
  obtain ⟨segment, page⟩ := metaPage_inj index hi here
  rw [cxlPageStart_metaPage hi]
  change _ ∧ x < _ + 65536
  omega

end CxlShm
