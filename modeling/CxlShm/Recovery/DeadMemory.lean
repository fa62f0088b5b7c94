import CxlShm.Alloc.Geometry
import CxlShm.Recovery.SegmentSweep

/-!
# The segment loop frees dead memory only

With no client left the segment loop runs by itself.  It ends, and what it zeroes is dead, as long as
the page records say what the pages hold.  The loop trusts `is_msg_queue_page` also where a page
holds nothing: the queues that it clears in such a page are as long as those of the queue bin,
whatever the `block_size` is.
-/

namespace CxlShm.SegmentSweep

open Function
open Heap (Kind memset initBlockSize cxlBinSize cxlPageQueue)

/-- The state after `n` accesses of the loop; behind its end nothing happens. -/
def sweeps : ℕ → State → State
  | 0, s => s
  | n + 1, s =>
    match s.sweepStep with
    | none => s
    | some s' => sweeps n s'

/-- The block is an object with a count, or a queue with an end; `blocks` says what each block is
allocated for. -/
def LiveBlock (blocks : ℕ → Option Kind) (s : State) (b : ℕ) : Prop :=
  (∃ dataSize, blocks b = some (.obj dataSize)) ∧
      0 < getRefCntFromInfo (s.heap.blockNext (b + 8)) ∨
    blocks b = some .msgQueue ∧ hasEndpoint (s.heap.blockNext (b + 16)) = true

/-- Page `j` of segment `g` contains such a block. -/
def LivePage (blocks : ℕ → Option Kind) (s : State) (g j : ℕ) : Prop :=
  ∃ b, cxlPtrPage b = metaPage (segmentAt g) j ∧ LiveBlock blocks s b

/-- The loop begins when all registered slots have been recovered; each `block_size` is 0 or the size
of a bin, and a page that holds an allocated block has the `block_size` and the `is_msg_queue_page`
for it. -/
structure Recovered (blocks : ℕ → Option Kind) (s : State) : Prop where
  start : s.sweep = .segment 0
  quiet : ∀ t, s.heap.registered t = false
  sizes : ∀ g, ∀ j < pagesPerSegment, s.heap.blockSize (metaPage (segmentAt g) j) = 0 ∨
    ∃ i < cxlBinSize, s.heap.blockSize (metaPage (segmentAt g) j) = initBlockSize i
  holds : ∀ b kind, blocks b = some kind → IsPage (cxlPtrPage b) ∧
    s.heap.blockSize (cxlPtrPage b) = initBlockSize (cxlPageQueue kind.special kind.size) ∧
    s.isMsgQueuePage (cxlPtrPage b) = decide (kind = .msgQueue) ∧
    ∃ i < pageSize / s.heap.blockSize (cxlPtrPage b),
      b = cxlPageBlockAt (cxlPageStart (cxlPtrPage b)) (s.heap.blockSize (cxlPtrPage b)) i

/-- Only pages with the size of the queue bin are marked as pages of queues. -/
def QueuePages (s : State) : Prop :=
  ∀ g, ∀ j < pagesPerSegment, s.isMsgQueuePage (metaPage (segmentAt g) j) = true →
    1 ≤ j ∧ (s.heap.blockSize (metaPage (segmentAt g) j) = 0 ∨
      s.heap.blockSize (metaPage (segmentAt g) j) = initBlockSize 1)

/-- The next access zeroes the record of page `j` of segment `g`. -/
def Sweep.ZeroesPage (g j : ℕ) : Sweep → Prop
  | .clearPage g' j' => g' = g ∧ j' = j
  | .clearSegment g' => g' = g
  | .segment _ | .page .. | .block .. | .info _ | .owner _ | .done => False

/-- The loop releases segment `g`. -/
def Sweep.Releases (g : ℕ) : Sweep → Prop
  | .clearSegment g' | .info g' | .owner g' => g' = g
  | .segment _ | .page .. | .block .. | .clearPage .. | .done => False

/-- The loop ends; it never zeroes the record of a page that contains a live block, and releases a
segment only if none of its pages does; a segment that it does not release keeps its owner and its
header. -/
structure FreesDeadOnly (blocks : ℕ → Option Kind) (s : State) : Prop where
  ends : ∃ n, (sweeps n s).sweep = .done
  page : ∀ n g, ∀ j < pagesPerSegment, (sweeps n s).sweep.ZeroesPage g j → ¬ LivePage blocks s g j
  released : ∀ n g, (sweeps n s).sweep.Releases g →
    ∀ j < pagesPerSegment, ¬ LivePage blocks s g j
  kept : ∀ g, (∀ n, ¬ (sweeps n s).sweep.Releases g) → ∀ n,
    (sweeps n s).heap.sasThreadId g = s.heap.sasThreadId g ∧
    (sweeps n s).heap.segmentThreadId g = s.heap.segmentThreadId g ∧
    (sweeps n s).heap.segmentUsed g = s.heap.segmentUsed g

variable {blocks : ℕ → Option Kind} {s s₀ s' : State} {g j b : ℕ}

/-! ## What an access can do -/

/-- The accesses of the loop, by where it is. -/
inductive Moves (s : State) : State → Prop
  | finish {g : ℕ} (here : s.sweep = .segment g) (all : maxSegmentNum ≤ g) :
      Moves s { s with sweep := .done }
  | unowned {g : ℕ} (here : s.sweep = .segment g) (more : g < maxSegmentNum)
      (free : s.heap.sasThreadId g = 0) : Moves s { s with sweep := .segment (g + 1) }
  | enter {g : ℕ} (here : s.sweep = .segment g) (more : g < maxSegmentNum)
      (taken : s.heap.sasThreadId g ≠ 0) : Moves s { s with sweep := .page g 0 }
  | dead {g j : ℕ} (here : s.sweep = .page g j) (all : pagesPerSegment ≤ j) :
      Moves s { s with sweep := .clearSegment g }
  | unused {g j : ℕ} (here : s.sweep = .page g j) (more : j < pagesPerSegment)
      (empty : s.heap.blockSize (metaPage (segmentAt g) j) = 0) :
      Moves s { s with sweep := .page g (j + 1) }
  | used {g j : ℕ} (here : s.sweep = .page g j) (more : j < pagesPerSegment)
      (size : s.heap.blockSize (metaPage (segmentAt g) j) ≠ 0) :
      Moves s { s with
        sweep := .block g j (cxlPageStart (metaPage (segmentAt g) j))
          (cxlPageStart (metaPage (segmentAt g) j) +
            (pageSize / s.heap.blockSize (metaPage (segmentAt g) j) - 1) *
              s.heap.blockSize (metaPage (segmentAt g) j)) }
  | through {g j b last : ℕ} (here : s.sweep = .block g j b last) (behind : last < b) :
      Moves s { s with sweep := .clearPage g j }
  | found {g j b last : ℕ} (here : s.sweep = .block g j b last) (inside : b ≤ last)
      (live : s.live (metaPage (segmentAt g) j) b = true) :
      Moves s { s with sweep := .segment (g + 1) }
  | next {g j b last : ℕ} (here : s.sweep = .block g j b last) (inside : b ≤ last)
      (dead : s.live (metaPage (segmentAt g) j) b = false) :
      Moves s { s.clearQueue (metaPage (segmentAt g) j) b with
        sweep := .block g j (b + s.heap.blockSize (metaPage (segmentAt g) j)) last }
  | clearPage {g j : ℕ} (here : s.sweep = .clearPage g j) :
      Moves s { s.clearPage (metaPage (segmentAt g) j) with sweep := .page g (j + 1) }
  | clearSegment {g : ℕ} (here : s.sweep = .clearSegment g) :
      Moves s { s.clearSegment g with sweep := .info g }
  | info {g : ℕ} (here : s.sweep = .info g) : Moves s { s.storeInfo g with sweep := .owner g }
  | owner {g : ℕ} (here : s.sweep = .owner g) :
      Moves s { s with
        heap.sasThreadId := update s.heap.sasThreadId g 0, sweep := .segment (g + 1) }

/-- The loop goes on until it is done. -/
theorem moves_of_sweepStep : s.sweep = .done ∧ s.sweepStep = none ∨
    ∃ s', s.sweepStep = some s' ∧ Moves s s' := by
  cases here : s.sweep with
  | segment g =>
    right
    simp only [State.sweepStep, here]
    by_cases all : maxSegmentNum ≤ g
    · exact ⟨_, if_pos all, .finish here all⟩
    · have more : g < maxSegmentNum := by omega
      by_cases free : s.heap.sasThreadId g = 0
      · exact ⟨_, by rw [if_neg all, if_pos free], .unowned here more free⟩
      · exact ⟨_, by rw [if_neg all, if_neg free], .enter here more free⟩
  | page g j =>
    right
    simp only [State.sweepStep, here]
    by_cases all : pagesPerSegment ≤ j
    · exact ⟨_, if_pos all, .dead here all⟩
    · have more : j < pagesPerSegment := by omega
      by_cases empty : s.heap.blockSize (metaPage (segmentAt g) j) = 0
      · exact ⟨_, by rw [if_neg all, if_pos empty], .unused here more empty⟩
      · exact ⟨_, by rw [if_neg all, if_neg empty], .used here more empty⟩
  | block g j b last =>
    right
    simp only [State.sweepStep, here]
    by_cases behind : last < b
    · exact ⟨_, if_pos behind, .through here behind⟩
    · have inside : b ≤ last := by omega
      by_cases live : s.live (metaPage (segmentAt g) j) b = true
      · exact ⟨_, by rw [if_neg behind, if_pos live], .found here inside live⟩
      · exact ⟨_, by rw [if_neg behind, if_neg live], .next here inside (by simpa using live)⟩
  | clearPage g j => exact .inr ⟨_, by rw [State.sweepStep, here], .clearPage here⟩
  | clearSegment g => exact .inr ⟨_, by rw [State.sweepStep, here], .clearSegment here⟩
  | info g => exact .inr ⟨_, by rw [State.sweepStep, here], .info here⟩
  | owner g => exact .inr ⟨_, by rw [State.sweepStep, here], .owner here⟩
  | done => exact .inl ⟨rfl, by rw [State.sweepStep, here]⟩

/-! ## The end -/

/-- What is left of the loop: 65600 for each page, and as much as 1025 pages for each segment. -/
def Sweep.left : Sweep → ℕ
  | .segment g => 67240000 * (maxSegmentNum - g) + 1
  | .page g j => 67240000 * (maxSegmentNum - (g + 1)) + 65600 * (pagesPerSegment - j) + 6
  | .block g j b last => 67240000 * (maxSegmentNum - (g + 1)) +
      65600 * (pagesPerSegment - (j + 1)) + (last + 1 - b) + 8
  | .clearPage g j => 67240000 * (maxSegmentNum - (g + 1)) +
      65600 * (pagesPerSegment - (j + 1)) + 7
  | .clearSegment g => 67240000 * (maxSegmentNum - (g + 1)) + 5
  | .info g => 67240000 * (maxSegmentNum - (g + 1)) + 4
  | .owner g => 67240000 * (maxSegmentNum - (g + 1)) + 3
  | .done => 0

/-- In the loop over the blocks of a page the size of the blocks is known. -/
def Sweep.Steady (s : State) : Prop :=
  match s.sweep with
  | .block g j _ _ => s.heap.blockSize (metaPage (segmentAt g) j) ≠ 0
  | .segment _ | .page .. | .clearPage .. | .clearSegment _ | .info _ | .owner _ | .done => True

theorem left_lt (steady : Sweep.Steady s) (move : Moves s s') :
    s'.sweep.left < s.sweep.left := by
  have segments : maxSegmentNum = 4096 := rfl
  have pages : pagesPerSegment = 1024 := rfl
  cases move
  case used g j here more size =>
    have fits : (pageSize / s.heap.blockSize (metaPage (segmentAt g) j) - 1) *
        s.heap.blockSize (metaPage (segmentAt g) j) ≤ 65536 := by
      apply Nat.mul_le_of_le_div
      exact Nat.sub_le _ _
    rw [here]
    simp only [Sweep.left]
    omega
  case next here inside dead =>
    rw [Sweep.Steady, here] at steady
    rw [here]
    simp only [Sweep.left]
    omega
  all_goals
    simp only [Sweep.left, *]
    omega

/-! ## What the loop has come past -/

/-- The pages that the loop has come past are dead, and so are the blocks. -/
def Passed (blocks : ℕ → Option Kind) (s₀ s : State) : Prop :=
  match s.sweep with
  | .page g j => ∀ k < j, k < pagesPerSegment → ¬ LivePage blocks s₀ g k
  | .block g j b last =>
    let page := metaPage (segmentAt g) j
    let bs := s.heap.blockSize page
    j < pagesPerSegment ∧ (∀ k < j, ¬ LivePage blocks s₀ g k) ∧ bs ≠ 0 ∧
      last = cxlPageStart page + (pageSize / bs - 1) * bs ∧
      (∃ i, b = cxlPageStart page + i * bs) ∧
      ∀ b', LiveBlock blocks s₀ b' → cxlPtrPage b' = page → b ≤ b'
  | .clearPage g j => j < pagesPerSegment ∧ ∀ k ≤ j, ¬ LivePage blocks s₀ g k
  | .clearSegment g | .info g | .owner g => ∀ k < pagesPerSegment, ¬ LivePage blocks s₀ g k
  | .segment _ | .done => True

/-- What holds in the loop that began in `s₀`: records are as they were or zeroed, what makes a block
live is as it was, and only dead pages have been passed. -/
structure SweepInv (blocks : ℕ → Option Kind) (s₀ s : State) : Prop where
  size : ∀ g, ∀ j < pagesPerSegment,
    s.heap.blockSize (metaPage (segmentAt g) j) = s₀.heap.blockSize (metaPage (segmentAt g) j) ∨
      s.heap.blockSize (metaPage (segmentAt g) j) = 0
  flag : ∀ g, ∀ j < pagesPerSegment, s.isMsgQueuePage (metaPage (segmentAt g) j) = true →
    s₀.isMsgQueuePage (metaPage (segmentAt g) j) = true
  kept : ∀ b, LiveBlock blocks s₀ b →
    s.heap.blockSize (cxlPtrPage b) = s₀.heap.blockSize (cxlPtrPage b) ∧
    s.isMsgQueuePage (cxlPtrPage b) = s₀.isMsgQueuePage (cxlPtrPage b) ∧
    s.live (cxlPtrPage b) b = true
  passed : Passed blocks s₀ s

/-- A live block is one of the blocks of its page, and the loop sees that it is live. -/
theorem LiveBlock.spec (live : LiveBlock blocks s₀ b) (h : Recovered blocks s₀) :
    IsPage (cxlPtrPage b) ∧ s₀.live (cxlPtrPage b) b = true ∧
      ∃ i < pageSize / s₀.heap.blockSize (cxlPtrPage b),
        b = cxlPageStart (cxlPtrPage b) + i * s₀.heap.blockSize (cxlPtrPage b) := by
  rcases live with ⟨⟨dataSize, here⟩, counted⟩ | ⟨here, ends⟩
  · obtain ⟨page, -, flag, place⟩ := h.holds b _ here
    refine ⟨page, ?_, place⟩
    rw [State.live, flag]
    simpa using counted
  · obtain ⟨page, -, flag, place⟩ := h.holds b _ here
    refine ⟨page, ?_, place⟩
    rw [State.live, flag]
    simpa using ends

/-- Where a live block is, by the size that the loop reads. -/
theorem SweepInv.place (inv : SweepInv blocks s₀ s) (h : Recovered blocks s₀)
    (live : LiveBlock blocks s₀ b) :
    ∃ i < pageSize / s.heap.blockSize (cxlPtrPage b),
      b = cxlPageStart (cxlPtrPage b) + i * s.heap.blockSize (cxlPtrPage b) := by
  rw [(inv.kept b live).1]
  exact (live.spec h).2.2

theorem SweepInv.size_ne_zero (inv : SweepInv blocks s₀ s) (h : Recovered blocks s₀)
    (live : LiveBlock blocks s₀ b) : s.heap.blockSize (cxlPtrPage b) ≠ 0 := by
  obtain ⟨i, bound, -⟩ := inv.place h live
  intro zero
  rw [zero, Nat.div_zero] at bound
  exact Nat.not_lt_zero i bound

/-- A page without a `block_size` is dead. -/
theorem SweepInv.dead_of_unused (inv : SweepInv blocks s₀ s) (h : Recovered blocks s₀)
    (empty : s.heap.blockSize (metaPage (segmentAt g) j) = 0) : ¬ LivePage blocks s₀ g j := by
  rintro ⟨b, page, live⟩
  rw [← page] at empty
  exact inv.size_ne_zero h live empty

/-- The invariant, where only the position changes. -/
theorem SweepInv.goTo (inv : SweepInv blocks s₀ s) {sweep : Sweep}
    (passed : Passed blocks s₀ { s with sweep }) : SweepInv blocks s₀ { s with sweep } :=
  ⟨inv.size, inv.flag, inv.kept, passed⟩

theorem same_block {start i i' d : ℕ} (lower : start + 192 * i ≤ start + 192 * i' + d)
    (upper : start + 192 * i' + d < start + 192 * i + 192) (word : d ≤ 16) : i' = i := by
  omega

/-- The words of a live block are not in a queue that is cleared. -/
theorem SweepInv.spares (inv : SweepInv blocks s₀ s) (h : Recovered blocks s₀)
    (queues : QueuePages s₀) {last b' d : ℕ} (here : s.sweep = .block g j b last)
    (inside : b ≤ last) (dead : s.live (metaPage (segmentAt g) j) b = false)
    (flagged : s.isMsgQueuePage (metaPage (segmentAt g) j) = true)
    (live : LiveBlock blocks s₀ b') (word : d ≤ 16)
    (fits : b' + d < cxlPageStart (cxlPtrPage b') + pageSize) :
    ¬ (b ≤ b' + d ∧ b' + d < b + Heap.sizeofMessageQueue) := by
  rintro ⟨lower, upper⟩
  have passed := inv.passed
  rw [Passed, here] at passed
  obtain ⟨below, -, some, end_, ⟨i, start⟩, -⟩ := passed
  obtain ⟨from_one, size₀⟩ := queues g j below (inv.flag g j below flagged)
  have size : s.heap.blockSize (metaPage (segmentAt g) j) = 192 := by
    rcases inv.size g j below with same | zero
    · rcases size₀ with zero | queue
      · exact absurd (same.trans zero) some
      · exact same.trans queue
    · exact absurd zero some
  have page : IsPage (metaPage (segmentAt g) j) := ⟨g, j, from_one, below, rfl⟩
  have page' := (live.spec h).1
  obtain ⟨i', -, start'⟩ := inv.place h live
  have count : pageSize / 192 - 1 = 340 := by decide
  rw [size, Nat.mul_comm] at start
  rw [size, count] at end_
  -- the word leads to the record of its own page, and to that of the page of the queue
  have own : cxlPtrPage (b' + d) = cxlPtrPage b' := by
    apply page'.cxlPtrPage_of_mem _ fits
    exact Nat.le_add_right_of_le (Nat.le.intro start'.symm)
  have its : cxlPtrPage (b' + d) = metaPage (segmentAt g) j := by
    apply page.cxlPtrPage_of_mem
    · exact (Nat.le.intro start.symm).trans lower
    · rw [end_] at inside
      change _ < _ + 192 at upper
      change _ < _ + 65536
      clear size₀ count
      omega
  have same : cxlPtrPage b' = metaPage (segmentAt g) j := own.symm.trans its
  rw [same, size, Nat.mul_comm] at start'
  have block : b' = b := by
    rw [start, start'] at lower upper
    rw [start, start', same_block lower upper word]
  have alive := (inv.kept b' live).2.2
  rw [same, block, dead] at alive
  cases alive

/-- The word that makes a block live is in its page. -/
theorem LiveBlock.fits (live : LiveBlock blocks s₀ b) (h : Recovered blocks s₀) :
    b + (if s₀.isMsgQueuePage (cxlPtrPage b) then 16 else 8) <
      cxlPageStart (cxlPtrPage b) + pageSize := by
  obtain ⟨⟨g, j, -, below, page⟩, -, i, bound, start⟩ := live.spec h
  have ends := Nat.mul_le_of_le_div _ _ _ bound
  rw [Nat.add_one_mul] at ends
  have word : (if s₀.isMsgQueuePage (cxlPtrPage b) then 16 else 8) <
      s₀.heap.blockSize (cxlPtrPage b) := by
    rcases live with ⟨⟨dataSize, here⟩, -⟩ | ⟨here, -⟩
    · obtain ⟨-, -, flag, -⟩ := h.holds b _ here
      have unflagged : s₀.isMsgQueuePage (cxlPtrPage b) = false := flag
      rw [unflagged, page]
      rcases h.sizes g j below with zero | ⟨k, bin, size⟩
      · rw [page, zero, Nat.div_zero] at bound
        exact absurd bound (Nat.not_lt_zero i)
      · have least := (initBlockSize_bin ⟨k, bin⟩).1
        rw [size]
        exact lt_of_lt_of_le (by decide) least
    · obtain ⟨-, size, flag, -⟩ := h.holds b _ here
      have flagged : s₀.isMsgQueuePage (cxlPtrPage b) = true := flag
      rw [flagged, size]
      decide
  omega

/-- A block whose page and word stay as they are is live as before. -/
theorem State.live_congr {page : ℕ} (flag : s'.isMsgQueuePage page = s.isMsgQueuePage page)
    (word : s'.heap.blockNext (b + if s.isMsgQueuePage page then 16 else 8) =
      s.heap.blockNext (b + if s.isMsgQueuePage page then 16 else 8)) :
    s'.live page b = s.live page b := by
  rw [State.live, State.live, flag]
  split at word
  · next flagged => rw [if_pos flagged, if_pos flagged, word]
  · next unflagged => rw [if_neg unflagged, if_neg unflagged, word]

/-- The next block. -/
theorem SweepInv.next (inv : SweepInv blocks s₀ s) (h : Recovered blocks s₀)
    (queues : QueuePages s₀) {last : ℕ} (here : s.sweep = .block g j b last) (inside : b ≤ last)
    (dead : s.live (metaPage (segmentAt g) j) b = false) :
    SweepInv blocks s₀ { s.clearQueue (metaPage (segmentAt g) j) b with
      sweep := .block g j (b + s.heap.blockSize (metaPage (segmentAt g) j)) last } := by
  have records : (s.clearQueue (metaPage (segmentAt g) j) b).heap.blockSize = s.heap.blockSize ∧
      (s.clearQueue (metaPage (segmentAt g) j) b).isMsgQueuePage = s.isMsgQueuePage := by
    rw [State.clearQueue]
    split <;> exact ⟨rfl, rfl⟩
  obtain ⟨size, flag⟩ := records
  refine ⟨?_, ?_, ?_, ?_⟩
  · change ∀ g', _
    rw [size]
    exact inv.size
  · change ∀ g', _
    rw [flag]
    exact inv.flag
  · intro b' live
    obtain ⟨same, same', alive⟩ := inv.kept b' live
    refine ⟨(congrFun size _).trans same, (congrFun flag _).trans same', ?_⟩
    rw [← alive]
    apply State.live_congr (congrFun flag _)
    rw [State.clearQueue]
    split
    · next flagged =>
      rw [same']
      apply if_neg
      apply inv.spares h queues here inside dead flagged live
      · split <;> decide
      · exact live.fits h
    · rfl
  · have passed := inv.passed
    rw [Passed, here] at passed
    obtain ⟨below, before, some, end_, ⟨i, start⟩, behind⟩ := passed
    simp only [Passed, size]
    refine ⟨below, before, some, end_, ⟨i + 1, ?_⟩, ?_⟩
    · rw [start, Nat.add_one_mul, Nat.add_assoc]
    · intro b' live page
      obtain ⟨i', -, start'⟩ := inv.place h live
      rw [page] at start'
      have different : b' ≠ b := by
        rintro rfl
        have alive := (inv.kept b' live).2.2
        rw [page, dead] at alive
        cases alive
      have least := behind b' live page
      have later : i + 1 ≤ i' := by
        by_contra early
        have steps := Nat.mul_le_mul_right (s.heap.blockSize (metaPage (segmentAt g) j))
          (show i' ≤ i by omega)
        omega
      have steps := Nat.mul_le_mul_right (s.heap.blockSize (metaPage (segmentAt g) j)) later
      rw [Nat.add_one_mul] at steps
      omega

theorem State.clearPage_self (s : State) (p : ℕ) :
    (s.clearPage p).heap.blockSize p = 0 ∧ (s.clearPage p).isMsgQueuePage p = false := by
  constructor
  · change update s.heap.blockSize p 0 p = 0
    rw [update_self]
  · change update s.isMsgQueuePage p false p = false
    rw [update_self]

theorem State.clearPage_of_ne {p p' : ℕ} (other : p' ≠ p) :
    (s.clearPage p).heap.blockSize p' = s.heap.blockSize p' ∧
      (s.clearPage p).isMsgQueuePage p' = s.isMsgQueuePage p' := by
  constructor
  · change update s.heap.blockSize p 0 p' = _
    rw [update_of_ne other]
  · change update s.isMsgQueuePage p false p' = _
    rw [update_of_ne other]

/-- One access of the loop. -/
theorem SweepInv.move (inv : SweepInv blocks s₀ s) (h : Recovered blocks s₀)
    (queues : QueuePages s₀) (move : Moves s s') : SweepInv blocks s₀ s' := by
  have passed := inv.passed
  cases move with
  | finish here all => exact inv.goTo trivial
  | unowned here more free => exact inv.goTo trivial
  | enter here more taken => exact inv.goTo fun k none => absurd none (Nat.not_lt_zero k)
  | @dead g j here all =>
    rw [Passed, here] at passed
    exact inv.goTo fun k below => passed k (by omega) below
  | @unused g j here more empty =>
    rw [Passed, here] at passed
    apply inv.goTo
    intro k up_to below
    rcases Nat.lt_succ_iff_lt_or_eq.1 up_to with before | rfl
    · exact passed k before below
    · exact inv.dead_of_unused h empty
  | @used g j here more size =>
    rw [Passed, here] at passed
    apply inv.goTo
    refine ⟨more, fun k before => passed k before (by omega), size, rfl, ⟨0, by simp⟩, ?_⟩
    intro b live page
    obtain ⟨i, -, start⟩ := inv.place h live
    rw [page] at start
    omega
  | @through g j b last here behind =>
    rw [Passed, here] at passed
    obtain ⟨below, before, some, end_, -, rest⟩ := passed
    apply inv.goTo
    refine ⟨below, fun k up_to => ?_⟩
    rcases Nat.lt_or_eq_of_le up_to with early | rfl
    · exact before k early
    · rintro ⟨b', page, live⟩
      obtain ⟨i, bound, start⟩ := inv.place h live
      rw [page] at bound start
      have steps := Nat.mul_le_mul_right (s.heap.blockSize (metaPage (segmentAt g) k))
        (Nat.le_sub_one_of_lt bound)
      have least := rest b' live page
      omega
  | found here inside live => exact inv.goTo trivial
  | next here inside dead => exact inv.next h queues here inside dead
  | @clearPage g j here =>
    rw [Passed, here] at passed
    obtain ⟨below, gone⟩ := passed
    refine ⟨?_, ?_, ?_, ?_⟩
    · intro g' j' below'
      by_cases same : metaPage (segmentAt g') j' = metaPage (segmentAt g) j
      · rw [same]
        exact .inr (s.clearPage_self _).1
      · change (s.clearPage _).heap.blockSize _ = _ ∨ (s.clearPage _).heap.blockSize _ = 0
        rw [(State.clearPage_of_ne same).1]
        exact inv.size g' j' below'
    · intro g' j' below' flagged
      have flagged : (s.clearPage (metaPage (segmentAt g) j)).isMsgQueuePage
          (metaPage (segmentAt g') j') = true := flagged
      by_cases same : metaPage (segmentAt g') j' = metaPage (segmentAt g) j
      · rw [same, (s.clearPage_self _).2] at flagged
        cases flagged
      · rw [(State.clearPage_of_ne same).2] at flagged
        exact inv.flag g' j' below' flagged
    · intro b live
      have other : cxlPtrPage b ≠ metaPage (segmentAt g) j := fun page =>
        gone j le_rfl ⟨b, page, live⟩
      obtain ⟨size, flag⟩ := State.clearPage_of_ne (s := s) other
      obtain ⟨same, same', alive⟩ := inv.kept b live
      refine ⟨size.trans same, flag.trans same', ?_⟩
      rw [← alive]
      exact State.live_congr flag rfl
    · exact fun k up_to _ => gone k (Nat.le_of_lt_succ up_to)
  | @clearSegment g here =>
    rw [Passed, here] at passed
    refine ⟨?_, ?_, ?_, passed⟩
    · intro g' j' below'
      by_cases zeroed : segmentAt g ≤ metaPage (segmentAt g') j' ∧
          metaPage (segmentAt g') j' < segmentAt g + sizeofSegment
      · exact .inr (if_pos zeroed)
      · have same : (s.clearSegment g).heap.blockSize (metaPage (segmentAt g') j') =
            s.heap.blockSize (metaPage (segmentAt g') j') := if_neg zeroed
        rw [same]
        exact inv.size g' j' below'
    · intro g' j' below' flagged
      by_cases zeroed : segmentAt g ≤ metaPage (segmentAt g') j' ∧
          metaPage (segmentAt g') j' < segmentAt g + sizeofSegment
      · have none : (s.clearSegment g).isMsgQueuePage (metaPage (segmentAt g') j') = false :=
          if_pos zeroed
        rw [none] at flagged
        cases flagged
      · have same : (s.clearSegment g).isMsgQueuePage (metaPage (segmentAt g') j') =
            s.isMsgQueuePage (metaPage (segmentAt g') j') := if_neg zeroed
        rw [same] at flagged
        exact inv.flag g' j' below' flagged
    · intro b live
      obtain ⟨g', j', -, below', page⟩ := (live.spec h).1
      have other : g ≠ g' := by
        rintro rfl
        exact passed j' below' ⟨b, page, live⟩
      have outside := metaPage_outside other below'
      rw [← page] at outside
      obtain ⟨same, same', alive⟩ := inv.kept b live
      have size : (s.clearSegment g).heap.blockSize (cxlPtrPage b) =
          s.heap.blockSize (cxlPtrPage b) := if_neg outside
      have flag : (s.clearSegment g).isMsgQueuePage (cxlPtrPage b) =
          s.isMsgQueuePage (cxlPtrPage b) := if_neg outside
      refine ⟨size.trans same, flag.trans same', ?_⟩
      rw [← alive]
      exact State.live_congr flag rfl
  | info here =>
    rw [Passed, here] at passed
    exact ⟨inv.size, inv.flag, inv.kept, passed⟩
  | owner here => exact ⟨inv.size, inv.flag, inv.kept, trivial⟩

/-! ## The whole loop -/

theorem SweepInv.start (h : Recovered blocks s) : SweepInv blocks s s := by
  refine ⟨fun _ _ _ => .inl rfl, fun _ _ _ => id, fun b live => ?_, ?_⟩
  · exact ⟨rfl, rfl, (live.spec h).2.1⟩
  · rw [Passed, h.start]
    trivial

theorem SweepInv.sweeps (inv : SweepInv blocks s₀ s) (h : Recovered blocks s₀)
    (queues : QueuePages s₀) (n : ℕ) : SweepInv blocks s₀ (sweeps n s) := by
  induction n generalizing s with
  | zero => exact inv
  | succ n ih =>
    rw [SegmentSweep.sweeps]
    rcases moves_of_sweepStep (s := s) with ⟨-, none⟩ | ⟨s', run, move⟩
    · rw [none]
      exact inv
    · rw [run]
      exact ih (inv.move h queues move)

theorem SweepInv.steady (inv : SweepInv blocks s₀ s) : Sweep.Steady s := by
  have passed := inv.passed
  rw [Passed] at passed
  rw [Sweep.Steady]
  split
  · next here =>
    rw [here] at passed
    exact passed.2.2.1
  all_goals trivial

/-- The loop ends: what is left of it gets less with every access. -/
theorem SweepInv.ends (inv : SweepInv blocks s₀ s) (h : Recovered blocks s₀)
    (queues : QueuePages s₀) : ∃ n, (SegmentSweep.sweeps n s).sweep = .done := by
  induction rest : s.sweep.left using Nat.strong_induction_on generalizing s with
  | _ left ih =>
    rcases moves_of_sweepStep (s := s) with ⟨done, -⟩ | ⟨s', run, move⟩
    · exact ⟨0, done⟩
    · have less := left_lt inv.steady move
      rw [rest] at less
      obtain ⟨n, done⟩ := ih s'.sweep.left less (inv.move h queues move) rfl
      refine ⟨n + 1, ?_⟩
      rw [SegmentSweep.sweeps, run]
      exact done

/-- The header and the owner of a segment that is not being released stay. -/
theorem header_of_moves (move : Moves s s') (kept : ¬ s.sweep.Releases g) :
    s'.heap.sasThreadId g = s.heap.sasThreadId g ∧
      s'.heap.segmentThreadId g = s.heap.segmentThreadId g ∧
      s'.heap.segmentUsed g = s.heap.segmentUsed g := by
  cases move
  case next here inside dead =>
    rw [State.clearQueue]
    split <;> exact ⟨rfl, rfl, rfl⟩
  case clearSegment g' here =>
    rw [here] at kept
    have other : g ≠ g' := fun same => kept same.symm
    exact ⟨rfl, update_of_ne other _ _, update_of_ne other _ _⟩
  case owner g' here =>
    rw [here] at kept
    have other : g ≠ g' := fun same => kept same.symm
    exact ⟨update_of_ne other _ _, rfl, rfl⟩
  all_goals exact ⟨rfl, rfl, rfl⟩

theorem header_of_sweeps (kept : ∀ n, ¬ (sweeps n s).sweep.Releases g) (n : ℕ) :
    (sweeps n s).heap.sasThreadId g = s.heap.sasThreadId g ∧
      (sweeps n s).heap.segmentThreadId g = s.heap.segmentThreadId g ∧
      (sweeps n s).heap.segmentUsed g = s.heap.segmentUsed g := by
  induction n generalizing s with
  | zero => exact ⟨rfl, rfl, rfl⟩
  | succ n ih =>
    rw [sweeps]
    rcases moves_of_sweepStep (s := s) with ⟨-, none⟩ | ⟨s', run, move⟩
    · rw [none]
      exact ⟨rfl, rfl, rfl⟩
    · rw [run]
      have now := header_of_moves move (kept 0)
      have later : ∀ n, ¬ (sweeps n s').sweep.Releases g := by
        intro n
        have rest := kept (n + 1)
        rwa [sweeps, run] at rest
      obtain ⟨owner, thread, used⟩ := ih later
      exact ⟨owner.trans now.1, thread.trans now.2.1, used.trans now.2.2⟩

/-- Where the loop releases a segment or zeroes a page, that is dead. -/
theorem SweepInv.dead_of_releases (inv : SweepInv blocks s₀ s) (releases : s.sweep.Releases g) :
    ∀ j < pagesPerSegment, ¬ LivePage blocks s₀ g j := by
  have passed := inv.passed
  rw [Passed] at passed
  cases here : s.sweep <;> rw [here] at passed releases <;>
    first
    | exact releases.elim
    | (obtain rfl := releases; exact passed)

theorem SweepInv.dead_of_zeroes (inv : SweepInv blocks s₀ s) (zeroes : s.sweep.ZeroesPage g j)
    (below : j < pagesPerSegment) : ¬ LivePage blocks s₀ g j := by
  have passed := inv.passed
  rw [Passed] at passed
  cases here : s.sweep with
  | clearPage g' j' =>
    rw [here] at passed zeroes
    obtain ⟨rfl, rfl⟩ := zeroes
    exact passed.2 _ le_rfl
  | clearSegment g' =>
    rw [here] at passed zeroes
    obtain rfl := zeroes
    exact passed _ below
  | segment _ | page _ _ | block _ _ _ _ | info _ | owner _ | done =>
    rw [here] at zeroes
    exact zeroes.elim

/-- **The segment loop frees dead memory only**, when the pages of queues are those that are marked
so. -/
theorem segmentLoop_frees_dead_only (blocks : ℕ → Option Kind) (s : State)
    (recovered : Recovered blocks s) (queues : QueuePages s) : FreesDeadOnly blocks s := by
  have inv := fun n => (SweepInv.start recovered).sweeps recovered queues n
  constructor
  · exact (SweepInv.start recovered).ends recovered queues
  · exact fun n g j below zeroes => (inv n).dead_of_zeroes zeroes below
  · exact fun n g releases => (inv n).dead_of_releases releases
  · exact fun g kept n => header_of_sweeps kept n

/-- A segment of client 1, whose first page is marked as a page of queues and holds nothing, and whose
second page holds an object that is still counted. -/
def twoPages (bs : ℕ) : State where
  heap :=
    { Heap.State.init with
      sasThreadId := update (fun _ => 0) 0 1
      blockSize := update (update (fun _ => 0) 134217784 bs) 134217832 1024
      blockNext := update (fun _ => 0) 134348808 (packRefInfo 1 1 1) }
  isMsgQueuePage := update (fun _ => false) 134217784 true
  era _ := 0
  tbr _ := 0
  embeddedRefCnt _ := 0
  pc _ := .idle
  sweep := .segment 0

/-- The only block that is allocated. -/
def secondPage : ℕ → Option Kind := update (fun _ => none) 134348800 (some (.obj 1000))

theorem recovered_twoPages {bs i : ℕ} (bin : i < cxlBinSize) (size : bs = initBlockSize i) :
    Recovered secondPage (twoPages bs) := by
  refine ⟨rfl, fun _ => rfl, ?_, ?_⟩
  · intro g j _
    change update (update (fun _ => 0) 134217784 bs) 134217832 1024 _ = 0 ∨
      ∃ i < _, update (update (fun _ => 0) 134217784 bs) 134217832 1024 _ = _
    by_cases second : metaPage (segmentAt g) j = 134217832
    · rw [second, update_self]
      exact .inr ⟨65, by decide, by decide⟩
    · rw [update_of_ne second]
      by_cases first : metaPage (segmentAt g) j = 134217784
      · rw [first, update_self]
        exact .inr ⟨i, bin, size⟩
      · rw [update_of_ne first]
        exact .inl rfl
  · intro b kind here
    have block : b = 134348800 := by
      by_contra other
      rw [secondPage, update_of_ne other] at here
      cases here
    subst block
    rw [secondPage, update_self] at here
    obtain rfl := Option.some.inj here
    have page : cxlPtrPage 134348800 = 134217832 := by decide
    have size : (twoPages bs).heap.blockSize 134217832 = 1024 := by
      change update (update (fun _ => 0) 134217784 bs) 134217832 1024 134217832 = 1024
      rw [update_self]
    have flag : (twoPages bs).isMsgQueuePage 134217832 = false := by
      change update (fun _ => false) 134217784 true 134217832 = false
      rw [update_of_ne (by decide)]
    rw [page, size, flag]
    exact ⟨⟨0, 2, by decide, by decide, by decide⟩, by decide, by decide, 0, by decide, by decide⟩

/-- A page of queues in front of the object. -/
theorem segmentLoop_frees_dead_only_queues : FreesDeadOnly secondPage (twoPages 192) := by
  apply segmentLoop_frees_dead_only
  · exact recovered_twoPages (i := 1) (by decide) (by decide)
  · intro g j below flagged
    have first : metaPage (segmentAt g) j = 134217784 := by
      by_contra other
      change update (fun _ => false) 134217784 true _ = true at flagged
      rw [update_of_ne other] at flagged
      cases flagged
    have record : 134217784 = metaPage (segmentAt 0) 1 := by decide
    obtain ⟨-, rfl⟩ := metaPage_inj below (by decide) (first.trans record)
    refine ⟨le_rfl, .inr ?_⟩
    rw [first]
    decide

/-- The first page has blocks of 144 bytes.  The last queue that the loop clears in it reaches 32 bytes
into the second page, where it zeroes the count of the object; then the record of the second page is
zeroed. -/
theorem cleared_beyond_page :
    Recovered secondPage (twoPages 144) ∧ LivePage secondPage (twoPages 144) 0 2 ∧
      ¬ FreesDeadOnly secondPage (twoPages 144) := by
  have live : LivePage secondPage (twoPages 144) 0 2 := by
    refine ⟨134348800, by decide, .inl ⟨⟨1000, by decide⟩, by decide⟩⟩
  refine ⟨recovered_twoPages (i := 10) (by decide) (by decide), live, fun claim => ?_⟩
  have here : (sweeps 526 (twoPages 144)).sweep = .clearPage 0 2 := by decide +kernel
  apply claim.page 526 0 2 (by decide) _ live
  rw [here]
  exact ⟨rfl, rfl⟩

end CxlShm.SegmentSweep
