import CxlShm.Recovery.DeadMemory

/-!
# What the segment loop gives back

`segmentLoop_frees_dead_only` says what the segment loop spares.  This file says what it does: with
no client left, it gives back exactly the segments in which it finds nothing alive, and zeroes
exactly the page records in front of the first page in which it finds something.  So
`check_recovery` tells whether anything alive was left before the loop.
-/

namespace CxlShm.SegmentSweep

open Function
open Heap (initBlockSize cxlBinSize)

variable {s s₀ s' : State} {g g' j k b last x : ℕ}

/-- Every block of page `j` of segment `g` reads dead; a page that is not in use has none. -/
def DeadPage (s : State) (g j : ℕ) : Prop :=
  let page := metaPage (segmentAt g) j
  ∀ i < pageSize / s.heap.blockSize page,
    s.live page (cxlPageStart page + i * s.heap.blockSize page) = false

/-- Every page of segment `g` reads dead. -/
def DeadSegment (s : State) (g : ℕ) : Prop := ∀ j < pagesPerSegment, DeadPage s g j

/-- The first `j` pages of segment `g` read dead, and page `j` as well. -/
def DeadUpTo (s : State) (g j : ℕ) : Prop := ∀ k ≤ j, DeadPage s g k

instance : Decidable (DeadPage s g j) :=
  inferInstanceAs (Decidable (∀ i < _, _ = false))

instance : Decidable (DeadSegment s g) := inferInstanceAs (Decidable (∀ j < _, DeadPage s g j))

instance : Decidable (DeadUpTo s g j) := inferInstanceAs (Decidable (∀ k ≤ j, DeadPage s g k))

/-- `monitor::check_recovery` -/
def State.checkRecovery (s : State) : Bool :=
  ((List.range maxThread).all fun i => !s.heap.registered (i + 1)) &&
    (List.range maxSegmentNum).all fun g => decide (s.heap.sasThreadId g = 0)

/-- The segment loop begins; each `block_size` is 0 or the size of a bin, the page of the segment
header is not in use, and only pages with the size of the queue bin are marked for queues. -/
structure Begins (s : State) : Prop where
  start : s.sweep = .segment 0
  sizes : ∀ g, ∀ j < pagesPerSegment, s.heap.blockSize (metaPage (segmentAt g) j) = 0 ∨
    ∃ i < cxlBinSize, s.heap.blockSize (metaPage (segmentAt g) j) = initBlockSize i
  header : ∀ g, s.heap.blockSize (metaPage (segmentAt g) 0) = 0
  queues : QueuePages s

/-! ## Pages that the loop has not come to -/

/-- The page reads as at the start. -/
structure SamePage (s₀ s : State) (g j : ℕ) : Prop where
  size : s.heap.blockSize (metaPage (segmentAt g) j) = s₀.heap.blockSize (metaPage (segmentAt g) j)
  flag : s.isMsgQueuePage (metaPage (segmentAt g) j) = s₀.isMsgQueuePage (metaPage (segmentAt g) j)
  words : ∀ x, cxlPageStart (metaPage (segmentAt g) j) ≤ x →
    x < cxlPageStart (metaPage (segmentAt g) j) + pageSize → s.heap.blockNext x = s₀.heap.blockNext x

theorem SamePage.refl (s : State) (g j : ℕ) : SamePage s s g j := ⟨rfl, rfl, fun _ _ _ => rfl⟩

/-- The pages are apart. -/
theorem page_eq_of_mem (below : j < pagesPerSegment) (below' : k < pagesPerSegment)
    (lower : cxlPageStart (metaPage (segmentAt g) j) ≤ x)
    (upper : x < cxlPageStart (metaPage (segmentAt g) j) + pageSize)
    (lower' : cxlPageStart (metaPage (segmentAt g') k) ≤ x)
    (upper' : x < cxlPageStart (metaPage (segmentAt g') k) + pageSize) : g' = g ∧ k = j := by
  rw [cxlPageStart_metaPage below] at lower upper
  rw [cxlPageStart_metaPage below'] at lower' upper'
  change j < 1024 at below
  change k < 1024 at below'
  change x < _ + 65536 at upper upper'
  omega

/-- The sizes of the blocks in use. -/
theorem Begins.size_bounds (h : Begins s) (below : j < pagesPerSegment)
    (used : s.heap.blockSize (metaPage (segmentAt g) j) ≠ 0) :
    16 ≤ s.heap.blockSize (metaPage (segmentAt g) j) ∧
      s.heap.blockSize (metaPage (segmentAt g) j) ≤ 1024 := by
  rcases h.sizes g j below with none | ⟨i, bin, size⟩
  · exact absurd none used
  · rw [size]
    exact initBlockSize_bin ⟨i, bin⟩

/-- The blocks of a queue page have the size of the queue bin. -/
theorem Begins.queue_size (h : Begins s) (below : j < pagesPerSegment)
    (used : s.heap.blockSize (metaPage (segmentAt g) j) ≠ 0)
    (flagged : s.isMsgQueuePage (metaPage (segmentAt g) j) = true) :
    s.heap.blockSize (metaPage (segmentAt g) j) = 192 :=
  (h.queues g j below flagged).2.resolve_left used

/-- The block is inside the page. -/
theorem block_le {i bs : ℕ} (bound : i < pageSize / bs) : i * bs + bs ≤ pageSize := by
  have fits := Nat.mul_le_of_le_div _ _ _ (Nat.succ_le_of_lt bound)
  rwa [Nat.add_one_mul] at fits

/-- A block that is not behind the last one is one of the page. -/
theorem Begins.index_lt {start i : ℕ} (h : Begins s) (below : j < pagesPerSegment)
    (used : s.heap.blockSize (metaPage (segmentAt g) j) ≠ 0)
    (inside : start + i * s.heap.blockSize (metaPage (segmentAt g) j) ≤
      start + (pageSize / s.heap.blockSize (metaPage (segmentAt g) j) - 1) *
        s.heap.blockSize (metaPage (segmentAt g) j)) :
    i < pageSize / s.heap.blockSize (metaPage (segmentAt g) j) := by
  have bounds := h.size_bounds below used
  have some : 0 < pageSize / s.heap.blockSize (metaPage (segmentAt g) j) :=
    Nat.div_pos (bounds.2.trans (by decide)) (by omega)
  have least := Nat.le_of_mul_le_mul_right (Nat.le_of_add_le_add_left inside)
    (show 0 < s.heap.blockSize (metaPage (segmentAt g) j) by omega)
  omega

/-- What the loop reads of a block, from the block on. -/
theorem Begins.live_eq {i : ℕ} (h : Begins s₀) (below : j < pagesPerSegment)
    (bound : i < pageSize / s₀.heap.blockSize (metaPage (segmentAt g) j))
    (flag : s.isMsgQueuePage (metaPage (segmentAt g) j) = s₀.isMsgQueuePage (metaPage (segmentAt g) j))
    (words : ∀ x, cxlPageStart (metaPage (segmentAt g) j) +
        i * s₀.heap.blockSize (metaPage (segmentAt g) j) ≤ x →
      x < cxlPageStart (metaPage (segmentAt g) j) + pageSize →
      s.heap.blockNext x = s₀.heap.blockNext x) :
    s.live (metaPage (segmentAt g) j) (cxlPageStart (metaPage (segmentAt g) j) +
        i * s₀.heap.blockSize (metaPage (segmentAt g) j)) =
      s₀.live (metaPage (segmentAt g) j) (cxlPageStart (metaPage (segmentAt g) j) +
        i * s₀.heap.blockSize (metaPage (segmentAt g) j)) := by
  have used : s₀.heap.blockSize (metaPage (segmentAt g) j) ≠ 0 := by
    intro none
    rw [none, Nat.div_zero] at bound
    exact Nat.not_lt_zero i bound
  have inside := block_le bound
  have least := (h.size_bounds below used).1
  apply State.live_congr flag
  apply words
  · exact Nat.le_add_right _ _
  · by_cases flagged : s₀.isMsgQueuePage (metaPage (segmentAt g) j) = true
    · rw [if_pos flagged]
      have size := h.queue_size below used flagged
      omega
    · rw [if_neg flagged]
      omega

/-- The segment is as at the start. -/
def Untouched (s₀ s : State) (g : ℕ) : Prop :=
  s.heap.sasThreadId g = s₀.heap.sasThreadId g ∧ ∀ k < pagesPerSegment, SamePage s₀ s g k

theorem SamePage.trans (h : SamePage s₀ s g j) (h' : SamePage s s' g j) : SamePage s₀ s' g j :=
  ⟨h'.size.trans h.size, h'.flag.trans h.flag, fun x lower upper =>
    (h'.words x lower upper).trans (h.words x lower upper)⟩

theorem Untouched.trans (h : Untouched s₀ s g) (h' : Untouched s s' g) : Untouched s₀ s' g :=
  ⟨h'.1.trans h.1, fun k below => (h.2 k below).trans (h'.2 k below)⟩

theorem Untouched.refl (s : State) (g : ℕ) : Untouched s s g := ⟨rfl, fun k _ => .refl s g k⟩

/-- Clearing a queue writes to its page only. -/
theorem samePage_clearQueue (below : j < pagesPerSegment) (below' : k < pagesPerSegment)
    (other : ¬ (g' = g ∧ k = j)) (lower : cxlPageStart (metaPage (segmentAt g) j) ≤ b)
    (upper : s.isMsgQueuePage (metaPage (segmentAt g) j) = true →
      b + 192 ≤ cxlPageStart (metaPage (segmentAt g) j) + pageSize) :
    SamePage s (s.clearQueue (metaPage (segmentAt g) j) b) g' k := by
  rw [State.clearQueue]
  split
  · next flagged =>
    refine ⟨rfl, rfl, fun x low high => if_neg fun inside => other ?_⟩
    exact page_eq_of_mem below below' (lower.trans inside.1)
      (lt_of_lt_of_le inside.2 (upper flagged)) low high
  · exact .refl s g' k

theorem samePage_clearPage (below : j < pagesPerSegment) (below' : k < pagesPerSegment)
    (other : ¬ (g' = g ∧ k = j)) : SamePage s (s.clearPage (metaPage (segmentAt g) j)) g' k := by
  have page : metaPage (segmentAt g') k ≠ metaPage (segmentAt g) j :=
    fun same => other (metaPage_inj below' below same)
  obtain ⟨size, flag⟩ := State.clearPage_of_ne (s := s) page
  exact ⟨size, flag, fun _ _ _ => rfl⟩

theorem samePage_clearSegment (below : k < pagesPerSegment) (other : g ≠ g') :
    SamePage s (s.clearSegment g) g' k := by
  have outside := metaPage_outside other below
  exact ⟨if_neg outside, if_neg outside, fun _ _ _ => rfl⟩

/-! ## How far the loop is -/

/-- What the loop makes of a segment. -/
structure Judged (s₀ s : State) (g : ℕ) : Prop where
  owner : s.heap.sasThreadId g = if DeadSegment s₀ g then 0 else s₀.heap.sasThreadId g
  record : ∀ k < pagesPerSegment, s.heap.blockSize (metaPage (segmentAt g) k) =
    if s₀.heap.sasThreadId g ≠ 0 ∧ DeadUpTo s₀ g k then 0
    else s₀.heap.blockSize (metaPage (segmentAt g) k)

theorem Judged.congr (h : Judged s₀ s g) (same : Untouched s s' g) : Judged s₀ s' g where
  owner := same.1.trans h.owner
  record k below := (same.2 k below).size.trans (h.record k below)

/-- The loop is in segment `g`: the first `dead` pages are dead, the records of the first `zeroed`
are zeroed, and those from page `rest` on are as at the start. -/
structure Within (s₀ s : State) (g dead zeroed rest : ℕ) : Prop where
  more : g < maxSegmentNum
  taken : s₀.heap.sasThreadId g ≠ 0
  owner : s.heap.sasThreadId g = s₀.heap.sasThreadId g
  dead : ∀ k < dead, DeadPage s₀ g k
  zeroed : ∀ k < zeroed, k < pagesPerSegment → s.heap.blockSize (metaPage (segmentAt g) k) = 0
  rest : ∀ k ≥ rest, k < pagesPerSegment → SamePage s₀ s g k

/-- What is known where the loop is. -/
def Here (s₀ s : State) : Prop :=
  match s.sweep with
  | .page g j => Within s₀ s g j j j
  | .block g j b last =>
    let page := metaPage (segmentAt g) j
    let bs := s₀.heap.blockSize page
    Within s₀ s g j j (j + 1) ∧ j < pagesPerSegment ∧ bs ≠ 0 ∧
      last = cxlPageStart page + (pageSize / bs - 1) * bs ∧
      s.heap.blockSize page = bs ∧ s.isMsgQueuePage page = s₀.isMsgQueuePage page ∧
      ∃ i, b = cxlPageStart page + i * bs ∧
        (∀ i' < i, i' < pageSize / bs → s₀.live page (cxlPageStart page + i' * bs) = false) ∧
        ∀ x, b ≤ x → x < cxlPageStart page + pageSize → s.heap.blockNext x = s₀.heap.blockNext x
  | .clearPage g j => j < pagesPerSegment ∧ Within s₀ s g (j + 1) j (j + 1)
  | .clearSegment g | .info g | .owner g =>
    Within s₀ s g pagesPerSegment pagesPerSegment pagesPerSegment
  | .segment g => g ≤ maxSegmentNum
  | .done => True

/-- The segments before this one have been judged. -/
def Sweep.past : Sweep → ℕ
  | .segment g | .page g _ | .block g _ _ _ | .clearPage g _ | .clearSegment g | .info g | .owner g => g
  | .done => maxSegmentNum

/-- The segments from this one on have not been looked at. -/
def Sweep.ahead : Sweep → ℕ
  | .segment g => g
  | .page g _ | .block g _ _ _ | .clearPage g _ | .clearSegment g | .info g | .owner g => g + 1
  | .done => maxSegmentNum

/-- The loop that began in `s₀` has come to `s`. -/
structure Tracks (s₀ s : State) : Prop where
  past : ∀ g < s.sweep.past, g < maxSegmentNum → Judged s₀ s g
  ahead : ∀ g ≥ s.sweep.ahead, Untouched s₀ s g
  here : Here s₀ s

/-- A move inside a segment. -/
theorem Tracks.inside (t : Tracks s₀ s) (past : s'.sweep.past = g) (past' : s.sweep.past = g)
    (ahead : s'.sweep.ahead = g + 1) (ahead' : s.sweep.ahead ≤ g + 1)
    (elsewhere : ∀ g' ≠ g, Untouched s s' g') (here : Here s₀ s') : Tracks s₀ s' where
  past g' before more := by
    rw [past] at before
    exact (t.past g' (by rwa [past']) more).congr (elsewhere g' (by omega))
  ahead g' behind := by
    rw [ahead] at behind
    exact (t.ahead g' (by omega)).trans (elsewhere g' (by omega))
  here := here

/-- A move that leaves a segment. -/
theorem Tracks.leave (t : Tracks s₀ s) (more : g < maxSegmentNum)
    (next : s'.sweep = .segment (g + 1)) (past : s.sweep.past = g)
    (ahead : s.sweep.ahead ≤ g + 1) (elsewhere : ∀ g' ≠ g, Untouched s s' g')
    (judged : Judged s₀ s' g) : Tracks s₀ s' where
  past g' before more := by
    rw [next, Sweep.past] at before
    by_cases this : g' = g
    · exact this ▸ judged
    · exact (t.past g' (by omega) more).congr (elsewhere g' this)
  ahead g' behind := by
    rw [next, Sweep.ahead] at behind
    exact (t.ahead g' (by omega)).trans (elsewhere g' (by omega))
  here := by
    rw [Here, next]
    exact more

/-! ## One access -/

/-- A change of the position changes nothing else. -/
theorem untouched_goTo (sweep : Sweep) (g : ℕ) : Untouched s { s with sweep } g :=
  ⟨rfl, fun _ _ => ⟨rfl, rfl, fun _ _ _ => rfl⟩⟩

theorem SamePage.goTo (h : SamePage s₀ s g j) (sweep : Sweep) : SamePage s₀ { s with sweep } g j :=
  ⟨h.size, h.flag, h.words⟩

/-- A block of the page is live: the loop leaves the segment with its owner. -/
theorem Within.judged {i : ℕ} (h : Within s₀ s g j j (j + 1)) (below : j < pagesPerSegment)
    (bound : i < pageSize / s₀.heap.blockSize (metaPage (segmentAt g) j))
    (size : s.heap.blockSize (metaPage (segmentAt g) j) = s₀.heap.blockSize (metaPage (segmentAt g) j))
    (live : s₀.live (metaPage (segmentAt g) j) (cxlPageStart (metaPage (segmentAt g) j) +
      i * s₀.heap.blockSize (metaPage (segmentAt g) j)) = true) : Judged s₀ s g := by
  have alive : ¬ DeadPage s₀ g j := by
    intro dead
    have this := dead i bound
    rw [live] at this
    cases this
  refine ⟨?_, fun k small => ?_⟩
  · rw [if_neg fun dead => alive (dead j below)]
    exact h.owner
  · by_cases before : k < j
    · have dead : DeadUpTo s₀ g k := fun k' le => h.dead k' (by omega)
      rw [if_pos ⟨h.taken, dead⟩]
      exact h.zeroed k before small
    · rw [if_neg fun dead => alive (dead.2 j (by omega))]
      by_cases this : k = j
      · exact this ▸ size
      · exact (h.rest k (by omega) small).size

/-- All pages are dead: the segment has no owner any more. -/
theorem Within.released (h : Within s₀ s g pagesPerSegment pagesPerSegment pagesPerSegment)
    {sweep : Sweep} : Judged s₀
      { s with heap.sasThreadId := update s.heap.sasThreadId g 0, sweep } g := by
  refine ⟨?_, fun k below => ?_⟩
  · rw [if_pos (show DeadSegment s₀ g from h.dead)]
    exact update_self ..
  · rw [if_pos ⟨h.taken, fun k' le => h.dead k' (by omega)⟩]
    exact h.zeroed k below below

/-- The access to a block that is dead. -/
theorem Tracks.next (t : Tracks s₀ s) (h : Begins s₀) (here : s.sweep = .block g j b last)
    (inside : b ≤ last) (dead : s.live (metaPage (segmentAt g) j) b = false) :
    Tracks s₀ { s.clearQueue (metaPage (segmentAt g) j) b with
      sweep := .block g j (b + s.heap.blockSize (metaPage (segmentAt g) j)) last } := by
  have records : (s.clearQueue (metaPage (segmentAt g) j) b).heap.blockSize = s.heap.blockSize ∧
      (s.clearQueue (metaPage (segmentAt g) j) b).isMsgQueuePage = s.isMsgQueuePage ∧
      (s.clearQueue (metaPage (segmentAt g) j) b).heap.sasThreadId = s.heap.sasThreadId := by
    rw [State.clearQueue]
    split <;> exact ⟨rfl, rfl, rfl⟩
  obtain ⟨sizes, flags, owners⟩ := records
  have at_block := t.here
  rw [Here, here] at at_block
  obtain ⟨within, below, used, last_eq, size, flag, i, start, dead_before, words⟩ := at_block
  rw [start, last_eq] at inside
  have bound := h.index_lt below used inside
  have room := block_le bound
  have upper : s.isMsgQueuePage (metaPage (segmentAt g) j) = true →
      b + 192 ≤ cxlPageStart (metaPage (segmentAt g) j) + pageSize := by
    intro flagged
    rw [flag] at flagged
    have queue := h.queue_size below used flagged
    rw [start]
    omega
  have lower : cxlPageStart (metaPage (segmentAt g) j) ≤ b := start ▸ Nat.le_add_right _ _
  have elsewhere (g' k : ℕ) (below' : k < pagesPerSegment) (other : ¬ (g' = g ∧ k = j)) :
      SamePage s (s.clearQueue (metaPage (segmentAt g) j) b) g' k :=
    samePage_clearQueue below below' other lower upper
  refine t.inside (g := g) rfl (by rw [here]; rfl) rfl (by rw [here]; exact le_rfl) ?_ ?_
  · intro g' other
    exact ⟨congrFun owners g', fun k below' => (elsewhere g' k below' fun same => other same.1).goTo _⟩
  · refine ⟨⟨within.more, within.taken, (congrFun owners g).trans within.owner, within.dead, ?_, ?_⟩,
      below, used, last_eq, (congrFun sizes _).trans size, (congrFun flags _).trans flag, i + 1, ?_, ?_, ?_⟩
    · intro k before below'
      exact (congrFun sizes _).trans (within.zeroed k before below')
    · intro k behind below'
      exact (within.rest k behind below').trans ((elsewhere g k below' fun same => by omega).goTo _)
    · rw [start, size, Nat.add_one_mul, Nat.add_assoc]
    · intro i' before bound'
      rcases Nat.lt_succ_iff_lt_or_eq.1 before with early | rfl
      · exact dead_before i' early bound'
      · rw [start] at words dead
        rw [← h.live_eq below bound flag words]
        exact dead
    · intro x from_next to_end
      rw [size] at from_next
      show (s.clearQueue (metaPage (segmentAt g) j) b).heap.blockNext x = _
      rw [State.clearQueue]
      split
      · next flagged =>
        have queue := h.queue_size below used (flag ▸ flagged)
        rw [← words x (by omega) to_end]
        apply if_neg
        rintro ⟨-, to_b⟩
        change x < b + 192 at to_b
        omega
      · exact words x (by omega) to_end

/-- One access of the loop. -/
theorem Tracks.move (t : Tracks s₀ s) (h : Begins s₀) (move : Moves s s') : Tracks s₀ s' := by
  have now := t.here
  rw [Here] at now
  cases move with
  | @finish g here all =>
    rw [here] at now
    obtain rfl := le_antisymm now all
    refine ⟨fun g' before more => ?_, fun g' behind => ?_, trivial⟩
    · exact (t.past g' (by rw [here]; exact before) more).congr (untouched_goTo _ g')
    · exact (t.ahead g' (by rw [here]; exact behind)).trans (untouched_goTo _ g')
  | @unowned g here more free =>
    have same := (t.ahead g (by rw [here]; exact le_rfl))
    refine t.leave more rfl (by rw [here]; rfl) (by rw [here]; exact Nat.le_succ g)
      (fun g' _ => untouched_goTo _ g') ⟨?_, fun k below => ?_⟩
    · have none : s₀.heap.sasThreadId g = 0 := same.1.symm.trans free
      rw [none, ite_self]
      exact free
    · have none : s₀.heap.sasThreadId g = 0 := same.1.symm.trans free
      rw [if_neg fun dead => dead.1 none]
      exact (same.2 k below).size
  | @enter g here more taken =>
    have same := (t.ahead g (by rw [here]; exact le_rfl))
    refine t.inside (g := g) rfl (by rw [here]; rfl) rfl (by rw [here]; exact Nat.le_succ g)
      (fun g' _ => untouched_goTo _ g') ⟨more, same.1 ▸ taken, same.1, ?_, ?_, ?_⟩
    · exact fun k none => absurd none (Nat.not_lt_zero k)
    · exact fun k none => absurd none (Nat.not_lt_zero k)
    · exact fun k _ below => (same.2 k below).goTo _
  | @dead g j here all =>
    rw [here] at now
    refine t.inside (g := g) rfl (by rw [here]; rfl) rfl (by rw [here]; exact le_rfl)
      (fun g' _ => untouched_goTo _ g') ⟨now.more, now.taken, now.owner, ?_, ?_, ?_⟩
    · exact fun k below => now.dead k (lt_of_lt_of_le below all)
    · exact fun k below => now.zeroed k (lt_of_lt_of_le below all)
    · exact fun k behind below => absurd below (Nat.not_lt.2 behind)
  | @unused g j here more empty =>
    rw [here] at now
    refine t.inside (g := g) rfl (by rw [here]; rfl) rfl (by rw [here]; exact le_rfl)
      (fun g' _ => untouched_goTo _ g') ⟨now.more, now.taken, now.owner, ?_, ?_, ?_⟩
    · intro k before
      rcases Nat.lt_succ_iff_lt_or_eq.1 before with early | rfl
      · exact now.dead k early
      · intro i bound
        have size := (now.rest k le_rfl more).size
        rw [← size, empty, Nat.div_zero] at bound
        exact absurd bound (Nat.not_lt_zero i)
    · intro k before below
      rcases Nat.lt_succ_iff_lt_or_eq.1 before with early | rfl
      · exact now.zeroed k early below
      · exact empty
    · exact fun k behind below => (now.rest k (by omega) below).goTo _
  | @used g j here more size =>
    rw [here] at now
    have same := now.rest j le_rfl more
    refine t.inside (g := g) rfl (by rw [here]; rfl) rfl (by rw [here]; exact le_rfl)
      (fun g' _ => untouched_goTo _ g') ⟨⟨now.more, now.taken, now.owner, now.dead, now.zeroed, ?_⟩, more,
        same.size ▸ size, ?_, same.size, same.flag, 0, ?_, ?_, ?_⟩
    · exact fun k behind below => (now.rest k (by omega) below).goTo _
    · rw [same.size]
    · rw [Nat.zero_mul, Nat.add_zero]
    · exact fun i none => absurd none (Nat.not_lt_zero i)
    · exact same.words
  | @through g j b last here behind =>
    rw [here] at now
    obtain ⟨within, below, used, last_eq, -, -, i, start, dead_before, -⟩ := now
    refine t.inside (g := g) rfl (by rw [here]; rfl) rfl (by rw [here]; exact le_rfl)
      (fun g' _ => untouched_goTo _ g') ⟨below, within.more, within.taken, within.owner, ?_, within.zeroed,
        fun k behind below => (within.rest k behind below).goTo _⟩
    intro k before
    rcases Nat.lt_succ_iff_lt_or_eq.1 before with early | rfl
    · exact within.dead k early
    · intro i' bound
      refine dead_before i' ?_ bound
      by_contra far
      have steps := Nat.mul_le_mul_right (s₀.heap.blockSize (metaPage (segmentAt g) k))
        (show i ≤ pageSize / s₀.heap.blockSize (metaPage (segmentAt g) k) - 1 by omega)
      rw [start, last_eq] at behind
      omega
  | @found g j b last here inside live =>
    rw [here] at now
    obtain ⟨within, below, used, last_eq, size, flag, i, start, -, words⟩ := now
    rw [start, last_eq] at inside
    have bound := h.index_lt below used inside
    rw [start] at words live
    rw [h.live_eq below bound flag words] at live
    refine t.leave within.more rfl (by rw [here]; rfl) (by rw [here]; exact le_rfl)
      (fun g' _ => untouched_goTo _ g') ?_
    exact (within.judged below bound size live).congr (untouched_goTo _ g)
  | next here inside dead => exact t.next h here inside dead
  | @clearPage g j here =>
    rw [here] at now
    obtain ⟨below, within⟩ := now
    have elsewhere (g' k : ℕ) (below' : k < pagesPerSegment) (other : ¬ (g' = g ∧ k = j)) :=
      samePage_clearPage (s := s) below below' other
    refine t.inside (g := g) rfl (by rw [here]; rfl) rfl (by rw [here]; exact le_rfl) ?_
      ⟨within.more, within.taken, within.owner, within.dead, ?_, ?_⟩
    · exact fun g' other => ⟨rfl, fun k below' => (elsewhere g' k below' fun same => other same.1).goTo _⟩
    · intro k before below'
      by_cases this : k = j
      · subst this
        exact (s.clearPage_self _).1
      · exact (elsewhere g k below' fun same => this same.2).size.trans
          (within.zeroed k (by omega) below')
    · exact fun k behind below' => (within.rest k behind below').trans
        ((elsewhere g k below' fun same => by omega).goTo _)
  | @clearSegment g here =>
    rw [here] at now
    refine t.inside (g := g) rfl (by rw [here]; rfl) rfl (by rw [here]; exact le_rfl) ?_
      ⟨now.more, now.taken, now.owner, now.dead, ?_, ?_⟩
    · exact fun g' other => ⟨rfl, fun k below => (samePage_clearSegment below other.symm).goTo _⟩
    · intro k before below
      show (s.clearSegment g).heap.blockSize _ = 0
      by_cases zeroed : segmentAt g ≤ metaPage (segmentAt g) k ∧
          metaPage (segmentAt g) k < segmentAt g + sizeofSegment
      · exact if_pos zeroed
      · exact (if_neg zeroed).trans (now.zeroed k before below)
    · exact fun k behind below => absurd below (Nat.not_lt.2 behind)
  | @info g here =>
    rw [here] at now
    refine t.inside (g := g) rfl (by rw [here]; rfl) rfl (by rw [here]; exact le_rfl) ?_
      ⟨now.more, now.taken, now.owner, now.dead, now.zeroed, ?_⟩
    · exact fun g' _ => ⟨rfl, fun k _ => ⟨rfl, rfl, fun _ _ _ => rfl⟩⟩
    · exact fun k behind below => absurd below (Nat.not_lt.2 behind)
  | @owner g here =>
    rw [here] at now
    refine t.leave now.more rfl (by rw [here]; rfl) (by rw [here]; exact le_rfl) ?_ now.released
    intro g' other
    exact ⟨update_of_ne other _ _, fun k _ => ⟨rfl, rfl, fun _ _ _ => rfl⟩⟩

/-! ## The whole loop -/

theorem Tracks.start (h : Begins s) : Tracks s s where
  past g before := by
    rw [h.start] at before
    exact absurd before (Nat.not_lt_zero g)
  ahead g _ := .refl s g
  here := by
    rw [Here, h.start]
    exact Nat.zero_le _

theorem Tracks.steady (t : Tracks s₀ s) : Sweep.Steady s := by
  have now := t.here
  rw [Here] at now
  rw [Sweep.Steady]
  split
  · next here =>
    rw [here] at now
    obtain ⟨-, -, used, -, size, -⟩ := now
    rwa [size]
  all_goals trivial

/-- The loop ends, and all segments are judged then. -/
theorem Tracks.ends (t : Tracks s₀ s) (h : Begins s₀) :
    ∃ n, (sweeps n s).sweep = .done ∧ Tracks s₀ (sweeps n s) ∧
      (sweeps n s).heap.registered = s.heap.registered := by
  induction rest : s.sweep.left using Nat.strong_induction_on generalizing s with
  | _ left ih =>
    rcases moves_of_sweepStep (s := s) with ⟨done, -⟩ | ⟨s', run, move⟩
    · exact ⟨0, done, t, rfl⟩
    · have less := left_lt t.steady move
      rw [rest] at less
      obtain ⟨n, done, t', registered⟩ := ih s'.sweep.left less (t.move h move) rfl
      have same : s'.heap.registered = s.heap.registered := by
        cases move
        case next => exact (State.owners_clearQueue s _ _).2
        all_goals rfl
      refine ⟨n + 1, ?_, ?_, ?_⟩ <;> rw [sweeps, run]
      · exact done
      · exact t'
      · exact registered.trans same

theorem checkRecovery_iff : s.checkRecovery = true ↔
    (∀ i < maxThread, s.heap.registered (i + 1) = false) ∧
      ∀ g < maxSegmentNum, s.heap.sasThreadId g = 0 := by
  simp only [State.checkRecovery, Bool.and_eq_true, List.all_eq_true, List.mem_range,
    Bool.not_eq_true', decide_eq_true_eq]

/-- The segment loop, alone, ends.  A segment loses its owner exactly if everything in it reads dead
when the loop begins, and the `block_size` of a page in use becomes 0 exactly if the page and those
before it read dead; so `check_recovery` says whether there are registered slots or live blocks in
owned segments. -/
theorem segmentLoop_judges (h : Begins s) :
    ∃ n, (sweeps n s).sweep = .done ∧
      (∀ g < maxSegmentNum, (sweeps n s).heap.sasThreadId g =
        if DeadSegment s g then 0 else s.heap.sasThreadId g) ∧
      (∀ g < maxSegmentNum, ∀ k < pagesPerSegment,
        (sweeps n s).heap.blockSize (metaPage (segmentAt g) k) =
          if s.heap.sasThreadId g ≠ 0 ∧ DeadUpTo s g k then 0
          else s.heap.blockSize (metaPage (segmentAt g) k)) ∧
      ((sweeps n s).checkRecovery = true ↔
        (∀ i < maxThread, s.heap.registered (i + 1) = false) ∧
          ∀ g < maxSegmentNum, s.heap.sasThreadId g ≠ 0 → DeadSegment s g) := by
  obtain ⟨n, done, tracks, registered⟩ := (Tracks.start h).ends h
  have judged (g : ℕ) (more : g < maxSegmentNum) : Judged s (sweeps n s) g :=
    tracks.past g (by rw [done]; exact more) more
  refine ⟨n, done, fun g more => (judged g more).owner, fun g more => (judged g more).record, ?_⟩
  rw [checkRecovery_iff, registered]
  refine and_congr_right fun _ => forall_congr' fun g => forall_congr' fun more => ?_
  rw [(judged g more).owner]
  by_cases dead : DeadSegment s g
  · simp [dead]
  · simp [dead]

/-- The object in the second page keeps its segment, and `check_recovery` reports it. -/
theorem segmentLoop_judges_object : ∃ n, (sweeps n (twoPages 192)).sweep = .done ∧
    (sweeps n (twoPages 192)).heap.sasThreadId 0 = 1 ∧
    (sweeps n (twoPages 192)).checkRecovery = false := by
  have alive : ¬ DeadSegment (twoPages 192) 0 := by
    intro dead
    have first := dead 2 (by decide) 0 (by decide)
    exact absurd first (by decide)
  have begins : Begins (twoPages 192) := by
    have recovered : Recovered secondPage (twoPages 192) :=
      recovered_twoPages (i := 1) (by decide) (by decide)
    refine ⟨recovered.start, recovered.sizes, fun g => ?_, fun g j below flagged => ?_⟩
    · show update (update (fun _ => 0) 134217784 192) 134217832 1024 _ = 0
      rw [metaPage_eq, update_of_ne (by omega), update_of_ne (by omega)]
    · have first : metaPage (segmentAt g) j = 134217784 := by
        by_contra other
        change update (fun _ => false) 134217784 true _ = true at flagged
        rw [update_of_ne other] at flagged
        cases flagged
      have record : 134217784 = metaPage (segmentAt 0) 1 := by decide
      obtain ⟨-, rfl⟩ := metaPage_inj below (by decide) (first.trans record)
      refine ⟨le_rfl, .inr ?_⟩
      rw [first]
      decide
  obtain ⟨n, done, owner, -, check⟩ := segmentLoop_judges begins
  refine ⟨n, done, ?_, ?_⟩
  · rw [owner 0 (by decide), if_neg alive]
    rfl
  · by_contra passed
    rw [Bool.not_eq_false, check] at passed
    exact alive (passed.2 0 (by decide) (by decide))

end CxlShm.SegmentSweep
