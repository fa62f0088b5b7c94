import CxlShm.Alloc.Partition

/-!
# A request for a block, from its beginning to its end

An allocation looks at the first page of its bin, then walks along the pages of the bin and collects
what has been freed in each, and then asks for a new page.  Here one client does so while the others
wait.  `request_state` says where such a request can be, and `served_iff` when it is answered: there has
to be a bin for the size, and a block, a free page or a segment that is left.
-/

namespace CxlShm.Heap

open Linked Counting Function Reachability

/-- The states of a request of client `t` for a block, with the number of rounds so far. -/
inductive Request (size t : ℕ) (kind : Kind) (s : State) : ℕ → State → Prop
  | begins {s' : State} : step size s (.alloc t kind) = some s' → Request size t kind s 0 s'
  | goes {n g k : ℕ} {s₁ s₂ : State} : Request size t kind s n s₁ →
      step size s₁ (.find t g k) = some s₂ → Request size t kind s (n + 1) s₂

/-- The state after the request. -/
def Answered (size t : ℕ) (kind : Kind) (s s' : State) : Prop :=
  ∃ n, Request size t kind s n s' ∧ s'.call t = .idle

/-- Nobody has taken the segment, which lies in the area. -/
def SegmentLeft (size : ℕ) (s : State) (g : ℕ) : Prop :=
  segmentsAreaStart + (g + 1) * segmentSize ≤ size ∧ s.sasThreadId g = 0

/-- Some page of the queue has a block that is not allocated. -/
def BlockLeft (s : State) (q : ℕ × ℕ) : Prop :=
  ∃ page, InQueue s q page ∧ ∃ b ∈ pageBlocks s page, s.allocated b = none

/-- The free pages of a client. -/
def freePages (s : State) (t : ℕ) : Set ℕ := {page | InQueue s (t, freePage) page}

/-- There are `n` free pages, or a segment to take them from. -/
def PagesLeft (size : ℕ) (s : State) (t n : ℕ) : Prop :=
  n ≤ (freePages s t).ncard ∨ ∃ g, SegmentLeft size s g

open Classical in
/-- How many of the requests need a new page. -/
noncomputable def pagesNeeded (s : State) (t : ℕ) (kinds : List Kind) : ℕ :=
  kinds.countP fun kind => ¬ BlockLeft s (State.queueOf t kind)

/-! ## Collecting -/

namespace State

variable {s s' : State} {page tail n : ℕ}

/-- The loop of `cxl_thread_free_collect` comes to the end of the chain. -/
theorem exists_collectBlocks {l : List ℕ} (chain : Chain s.blockNext 0 tail l) :
    ∃ n s', collectBlocks n tail s = some s' := by
  induction l generalizing tail s with
  | nil =>
    obtain rfl := chain
    exact ⟨0, s, rfl⟩
  | cons b l ih =>
    have out := (List.nodup_cons.1 chain.nodup).1
    obtain ⟨rfl, some, rest⟩ := chain_cons.1 chain
    have after := rest.update (y := s.localFree (cxlPtrPage tail)) out
    obtain ⟨n, s', run⟩ := ih (s := { s with
      blockNext := update s.blockNext tail (s.localFree (cxlPtrPage tail))
      localFree := update s.localFree (cxlPtrPage tail) tail
      used := update s.used (cxlPtrPage tail) (dec32 (s.used (cxlPtrPage tail))) }) after
    exact ⟨n + 1, s', by simp only [collectBlocks, if_neg some, run]⟩

theorem collectBlocks_info (run : collectBlocks n tail s = some s') : s'.info = s.info := by
  induction n generalizing tail s with
  | zero =>
    simp only [collectBlocks] at run
    split at run
    · rw [Option.some.inj run]
    · cases run
  | succ n ih =>
    simp only [collectBlocks] at run
    split at run
    · cases run
    · have same := ih run
      exact same

end State

section Collect

variable {home : Homes} {place : ℕ → Place} {s s' : State} {page t i n : ℕ}

theorem Blocks.exists_collect (h : Blocks home place 0 s) (page : ℕ) :
    ∃ n s', s.cxlPageFreeCollect page n = some s' := by
  by_cases none : (s.info (segmentIndex page)).threadFree = 0
  · exact ⟨0, _, by rw [State.cxlPageFreeCollect, State.cxlThreadFreeCollect, if_pos none]; rfl⟩
  · obtain ⟨l, chain, -⟩ := h.lists (.threadFree (segmentIndex page))
    change Chain s.blockNext 0 (s.info (segmentIndex page)).threadFree l at chain
    obtain ⟨n, s', run⟩ := State.exists_collectBlocks (s := { s with
      info := update s.info (segmentIndex page) ⟨(s.info (segmentIndex page)).state, 0⟩ }) chain
    exact ⟨n, _, by rw [State.cxlPageFreeCollect, State.cxlThreadFreeCollect, if_neg none, run]; rfl⟩

/-- After collecting, a page without free blocks has none on its other lists. -/
theorem State.collected_empty (run : s.cxlPageFreeCollect page n = some s') (empty : s'.free page = 0) :
    s'.localFree page = 0 ∧ (s'.info (segmentIndex page)).threadFree = 0 := by
  obtain ⟨s₁, collected, rfl⟩ := Option.map_eq_some_iff.1 run
  have thread : (s₁.info (segmentIndex page)).threadFree = 0 := by
    rw [State.cxlThreadFreeCollect] at collected
    split at collected
    · next none =>
      obtain rfl := Option.some.inj collected
      exact none
    · rw [State.collectBlocks_info collected]
      simp
  rw [State.mergeLocalFree] at empty ⊢
  split
  · next both =>
    rw [if_pos both] at empty
    simp only [update_self] at empty
    exact absurd empty both.1
  · next neither =>
    rw [if_neg neither] at empty
    exact ⟨by_contra fun some => neither ⟨some, empty⟩, thread⟩

/-- Collecting only moves blocks from list to list. -/
theorem Blocks.hasBlock_collect (pages : Pages home s) (h : Blocks home place 0 s)
    (here : home page = some (t, i)) (bin : i < cxlBinSize) {p : ℕ}
    (run : s.cxlPageFreeCollect p n = some s') : HasBlock s' page ↔ HasBlock s page := by
  obtain ⟨same, place', h'⟩ := h.cxlPageFreeCollect run
  have blocks : pageBlocks s' page = pageBlocks s page := by
    rw [pageBlocks, pageBlocks, same.blockSize]
  rw [h'.hasBlock_iff (pages.of_samePages same) here bin, h.hasBlock_iff pages here bin, blocks,
    State.allocated_cxlPageFreeCollect run]

/-- A page without a free block after collecting has none on any list. -/
theorem State.not_hasBlock_of_collected (run : s.cxlPageFreeCollect page n = some s')
    (empty : s'.free page = 0) : ¬ HasBlock s' page := by
  obtain ⟨localEmpty, threadEmpty⟩ := collected_empty run empty
  rintro (some | some | ⟨b, ⟨l, chain, mem⟩, -⟩)
  · exact some empty
  · exact some localEmpty
  · rw [threadEmpty, chain_null] at chain
    rw [chain] at mem
    cases mem

/-- A page that has no free block after collecting has allocated all its blocks. -/
theorem Blocks.full_of_collected (pages : Pages home s) (h : Blocks home place 0 s)
    (here : home page = some (t, i)) (bin : i < cxlBinSize)
    (run : s.cxlPageFreeCollect page n = some s') (empty : s'.free page = 0) {b : ℕ}
    (inside : b ∈ pageBlocks s page) : s.allocated b ≠ none := by
  intro free
  have some := (h.hasBlock_iff pages here bin).2 ⟨b, inside, free⟩
  rw [← h.hasBlock_collect pages here bin run] at some
  exact State.not_hasBlock_of_collected run empty some

/-- The block that is taken from a page of the bin. -/
theorem Blocks.take_answer {kind : Kind} (pages : Pages home s) (h : Blocks home place 0 s)
    (here : home page = some (State.queueOf t kind)) (small : kind.bytes ≤ 1024)
    (run : s.blockTo kind page = some s') :
    ∃ b ∈ pageBlocks s page, s.allocated b = none ∧
      s'.allocated = update s.allocated b (some kind.special) ∧ cxlPtrPage b = page ∧
      InQueue s' (State.queueOf t kind) page ∧ b ∈ pageBlocks s' page := by
  have some : s.free page ≠ 0 := by
    intro none
    simp [State.blockTo, none] at run
  obtain ⟨listed, record⟩ := h.place_free some
  obtain ⟨fresh, same, taken⟩ := h.take here (serves_queueOf small) run
  have bin := cxlPageQueue_lt small
  have inside : s.free page ∈ pageBlocks s page :=
    (mem_pageBlocks_iff pages h here bin).2 ⟨record, by simp [listed]⟩
  refine ⟨s.free page, inside, fresh, State.allocated_blockTo run, record, ?_, ?_⟩
  · exact ((pages.of_samePages same).inQueue _ _).2 here
  · rw [pageBlocks, same.blockSize]
    exact inside

end Collect

/-! ## The walk along the pages of the bin -/

/-- The request has found nothing on the pages `before`, and goes on with `page`. -/
structure Searching (t : ℕ) (kind : Kind) (s : State) (before rest : List ℕ) (page : ℕ) (s₁ : State) :
    Prop where
  call : s₁.call t = .find kind page
  first : s₁.first = s.first
  next : s₁.next = s.next
  sasThreadId : s₁.sasThreadId = s.sasThreadId
  blockSize : s₁.blockSize = s.blockSize
  allocated : s₁.allocated = s.allocated
  registered : s₁.registered = s.registered
  queue : Queued s (State.queueOf t kind) (before ++ rest)
  cursor : Chain s.next 0 page rest
  full : ∀ p ∈ before, ∀ b ∈ pageBlocks s p, s.allocated b ≠ none

/-- The request has been answered with the block `b`.  A new page is taken only if the bin has no
block left. -/
structure Answer (size t : ℕ) (kind : Kind) (s : State) (b : ℕ) (s' : State) : Prop where
  call : s'.call t = .idle
  fresh : s.allocated b = none
  allocated : s'.allocated = update s.allocated b (some kind.special)
  queued : InQueue s' (State.queueOf t kind) (cxlPtrPage b)
  inside : b ∈ pageBlocks s' (cxlPtrPage b)
  registered : s'.registered = s.registered
  others : ∀ u i p, i < cxlBinSize → (u, i) ≠ State.queueOf t kind →
    (InQueue s' (u, i) p ↔ InQueue s (u, i) p)
  origin : BlockLeft s (State.queueOf t kind) ∧ freePages s' t = freePages s t ∧
      s'.sasThreadId = s.sasThreadId ∨
    ¬ BlockLeft s (State.queueOf t kind) ∧
      ((∃ page ∈ freePages s t, freePages s' t = freePages s t \ {page}) ∧
          s'.sasThreadId = s.sasThreadId ∨
        (∃ g, SegmentLeft size s g) ∧ (freePages s' t).Nonempty)

section Walk

variable {size t n g k : ℕ} {kind : Kind} {s s₁ s₂ : State} {before rest : List ℕ} {page : ℕ}
  {home : Homes} {place : ℕ → Place}

/-- An answer from a page of the bin; nothing but blocks has moved since the beginning. -/
theorem Blocks.answer_of_page (pages : Pages home s₁) (blocks : Blocks home place 0 s₁)
    (here : home page = some (State.queueOf t kind)) (small : kind.bytes ≤ 1024)
    (run : s₁.blockTo kind page = some s₂) (idle : s₁.call t = .idle) (first : s₁.first = s.first)
    (next : s₁.next = s.next) (sasThreadId : s₁.sasThreadId = s.sasThreadId)
    (blockSize : s₁.blockSize = s.blockSize) (same : s₁.allocated = s.allocated)
    (registered : s₁.registered = s.registered) : ∃ b, Answer size t kind s b s₂ := by
  obtain ⟨b, inside, fresh, allocated, record, queued, inside'⟩ :=
    blocks.take_answer pages here small run
  have moved := (blocks.take here (serves_queueOf small) run).2.1
  have queue (q : ℕ × ℕ) (p : ℕ) : InQueue s₂ q p ↔ InQueue s q p := by
    simp only [InQueue, Queued, moved.first, moved.next, first, next]
  have blocks_eq : pageBlocks s₁ page = pageBlocks s page := by
    rw [pageBlocks, pageBlocks, blockSize]
  have in_bin : InQueue s (State.queueOf t kind) page := (queue _ _).1 queued
  rw [same] at fresh allocated
  rw [blocks_eq] at inside
  rw [← record] at queued inside'
  refine ⟨b, moved.call ▸ idle, fresh, allocated, queued, inside', moved.registered.trans registered,
    fun u i p _ _ => queue (u, i) p, .inl ⟨⟨page, in_bin, b, inside, fresh⟩, ?_, ?_⟩⟩
  · ext p
    exact queue _ p
  · exact moved.sasThreadId.trans sasThreadId

/-- Where the request is after its first step. -/
theorem request_begins (inv : Inv s) (small : kind.bytes ≤ 1024)
    (run : step size s (.alloc t kind) = some s₁) :
    (∃ rest page, Searching t kind s [] rest page s₁) ∨ ∃ b, Answer size t kind s b s₁ := by
  obtain ⟨home, place, pages, blocks⟩ := inv
  have bin := cxlPageQueue_lt small
  have below : ¬ freePage < (State.queueOf t kind).2 := Nat.lt_asymm bin
  simp only [step] at run
  split at run
  swap
  · cases run
  next ready =>
  simp only [State.allocStep, if_neg below] at run
  split at run
  · next found =>
    have here := Lists.home_first pages.queues found.1
    exact .inr (blocks.answer_of_page pages here small run ready.2 rfl rfl rfl rfl rfl rfl)
  · obtain rfl := Option.some.inj run
    obtain ⟨l, dll, -⟩ := pages.queues (State.queueOf t kind)
    exact .inl ⟨l, _, update_self _ _ _, rfl, rfl, rfl, rfl, rfl, rfl, dll.1, dll.1, by simp⟩

/-- `cxl_page_fresh` needs a free page or a segment. -/
theorem segmentLeft_of_cxlPageFresh {q : ℕ × ℕ} {s' : State} (none : s.first (q.1, freePage) = 0)
    (run : s.cxlPageFresh size q g = some (s', page)) : SegmentLeft size s g := by
  obtain ⟨⟨s₁, p⟩, alloc, -⟩ := Option.bind_eq_some_iff.1 run
  rw [State.cxlSegmentPageAlloc, if_pos none] at alloc
  obtain ⟨s₂, segment, -⟩ := Option.map_eq_some_iff.1 alloc
  rw [State.cxlSegmentAlloc] at segment
  split at segment
  · next left => exact left
  · cases segment

/-- At the end of the walk the bin has no block left. -/
theorem Searching.none_left (h : Searching t kind s before rest 0 s₁) :
    ¬ BlockLeft s (State.queueOf t kind) := by
  rintro ⟨p, ⟨l, queued, mem⟩, b, inside, free⟩
  have cursor := h.cursor
  rw [chain_null] at cursor
  have queue := h.queue
  rw [cursor, List.append_nil] at queue
  rw [Chain.unique queued queue] at mem
  exact h.full p mem b inside free

/-- The last round of a request: a new page. -/
theorem request_fresh (inv₁ : Inv s₁) (h : Searching t kind s before rest 0 s₁)
    (run : step size s₁ (.find t g k) = some s₂) : ∃ b, Answer size t kind s b s₂ := by
  obtain ⟨home, place, pages, blocks⟩ := inv₁
  obtain ⟨registered, small, -⟩ := pages.call t kind 0 h.call
  have bin := cxlPageQueue_lt small
  have queue (q : ℕ × ℕ) (p : ℕ) : home p = some q ↔ InQueue s q p := by
    rw [← pages.inQueue]
    simp only [InQueue, Queued, h.next, h.first]
  simp only [step, State.findStep, h.call, if_true] at run
  obtain ⟨⟨s₃, page₃⟩, fresh, taken⟩ := Option.bind_eq_some_iff.1 run
  obtain ⟨home₃, place₃, pages₃, blocks₃, here, calls, home₂, opened, was_free, bins, origin⟩ :=
    pages.cxlPageFresh blocks registered bin fresh
  have idle : Pages home₃ (s₃.setCall t .idle) := pages₃.setCall (by simp)
  have blocks₄ : Blocks home₃ place₃ 0 (s₃.setCall t .idle) :=
    blocks₃.of_same rfl rfl rfl rfl rfl rfl
  obtain ⟨b, -, unused, allocated, record, queued, inside⟩ :=
    blocks₄.take_answer idle here small taken
  have moved := (blocks₄.take here (serves_queueOf small) taken).2.1
  have fixed : (s₃.setCall t .idle).allocated = s.allocated :=
    (State.allocated_cxlPageFresh fresh).trans h.allocated
  have queue' (q : ℕ × ℕ) (p : ℕ) : InQueue s₂ q p ↔ home₃ p = some q :=
    (idle.of_samePages moved).inQueue q p
  have fromFree : (t, freePage) ≠ State.queueOf t kind := by
    intro same
    exact Nat.lt_irrefl _ ((congrArg Prod.snd same).trans_lt bin)
  rw [fixed] at unused allocated
  rw [← record] at queued inside
  refine ⟨b, ?_, unused, allocated, queued, inside, ?_, ?_, .inr ⟨h.none_left, ?_⟩⟩
  · rw [moved.call]
    exact update_self _ _ _
  · have clients : (s₃.setCall t .idle).registered = s₁.registered := calls.registered
    exact (moved.registered.trans clients).trans h.registered
  · intro u i p bin' other
    rw [queue', ← queue, opened]
    by_cases same : p = page₃
    · subst same
      rw [update_self, ← bins p u i bin', was_free]
      refine iff_of_false (fun eq => other (Option.some.inj eq).symm) fun eq => ?_
      have index : freePage = i := congrArg Prod.snd (Option.some.inj eq)
      exact Nat.lt_irrefl _ (index.trans_lt bin')
    · rw [update_of_ne same]
      exact bins p u i bin'
  · rcases origin with ⟨rfl, sas⟩ | ⟨none, pushed⟩
    · refine .inl ⟨⟨page₃, (queue _ _).1 was_free, ?_⟩, ?_⟩
      · ext p
        rw [freePages, freePages, Set.mem_ofPred_eq, Set.mem_sdiff, Set.mem_ofPred_eq,
          Set.mem_singleton_iff, queue', ← queue, opened]
        by_cases same : p = page₃
        · subst same
          rw [update_self]
          exact iff_of_false (fun eq => fromFree (Option.some.inj eq).symm) fun both => both.2 rfl
        · rw [update_of_ne same]
          exact ⟨fun home => ⟨home, same⟩, fun both => both.1⟩
      · exact (moved.sasThreadId.trans sas).trans h.sasThreadId
    · have left := segmentLeft_of_cxlPageFresh (q := State.queueOf t kind) none fresh
      rw [SegmentLeft, h.sasThreadId] at left
      refine .inr ⟨⟨g, left⟩, ?_⟩
      -- one of two pages of the new segment is not the page that has been taken
      obtain ⟨j, from_one, below, other⟩ : ∃ j, 1 ≤ j ∧ j < pagesPerSegment ∧
          metaPage (segmentAt g) j ≠ page₃ := by
        by_cases first : metaPage (segmentAt g) 1 = page₃
        · refine ⟨2, by decide, by decide, fun second => ?_⟩
          have same := (metaPage_inj (by decide) (by decide) (first.trans second.symm)).2
          cases same
        · exact ⟨1, le_rfl, by decide, first⟩
      refine ⟨metaPage (segmentAt g) j, (queue' _ _).2 ?_⟩
      rw [opened, update_of_ne other]
      exact pushed j from_one below

/-- One round of a request. -/
theorem request_goes (inv₁ : Inv s₁) (h : Searching t kind s before rest page s₁)
    (run : step size s₁ (.find t g k) = some s₂) :
    (∃ rest', rest = page :: rest' ∧ Searching t kind s (before ++ [page]) rest' (s.next page) s₂) ∨
      ∃ b, Answer size t kind s b s₂ := by
  by_cases last : page = 0
  · subst last
    exact .inr (request_fresh inv₁ h run)
  obtain ⟨home, place, pages, blocks⟩ := inv₁
  obtain ⟨registered, small, cursor⟩ := pages.call t kind page h.call
  have bin := cxlPageQueue_lt small
  simp only [step, State.findStep, h.call, if_neg last] at run
  obtain ⟨s₃, collected, taken⟩ := Option.bind_eq_some_iff.1 run
  obtain ⟨same, place₃, blocks₃⟩ := blocks.cxlPageFreeCollect collected
  have pages₃ := pages.of_samePages same
  have here := cursor.resolve_left last
  have fixed := (State.allocated_cxlPageFreeCollect collected).trans h.allocated
  have first := same.first.trans h.first
  have next := same.next.trans h.next
  have sas := same.sasThreadId.trans h.sasThreadId
  have size := same.blockSize.trans h.blockSize
  have clients := same.registered.trans h.registered
  split at taken
  · have idle : Pages home (s₃.setCall t .idle) := pages₃.setCall (by simp)
    have blocks₄ : Blocks home place₃ 0 (s₃.setCall t .idle) :=
      blocks₃.of_same rfl rfl rfl rfl rfl rfl
    exact .inr (blocks₄.answer_of_page idle here small taken (update_self _ _ _) first next sas size
      fixed clients)
  · next empty =>
    have empty : s₃.free page = 0 := not_not.1 empty
    obtain rfl := Option.some.inj taken
    obtain ⟨rest', rfl, tail⟩ := h.cursor.exists_cons last
    refine .inl ⟨rest', rfl, ?_, first, next, sas, size, fixed, clients, ?_, tail, ?_⟩
    · rw [← h.next]
      exact update_self _ _ _
    · simpa using h.queue
    · intro p mem b inside
      rcases List.mem_append.1 mem with mem | mem
      · exact h.full p mem b inside
      · obtain rfl := List.mem_singleton.1 mem
        have blocks_eq : pageBlocks s₁ p = pageBlocks s p := by
          rw [pageBlocks, pageBlocks, h.blockSize]
        rw [← blocks_eq] at inside
        rw [← h.allocated]
        exact blocks.full_of_collected pages here bin collected empty inside

end Walk

/-! ## Sizes -/

/-- No page has larger blocks than the last bin, and no queue asks for larger ones. -/
structure Bounded (s : State) : Prop where
  page : ∀ p, s.blockSize p ≤ 1024
  queue : ∀ q, s.queueBlockSize q ≤ 1024

theorem initBlockSize_le_max (i : ℕ) : initBlockSize i ≤ 1024 := by
  by_cases bin : i < cxlBinSize
  · exact initBlockSize_le bin
  · have last : 66 ≤ i := Nat.le_of_not_lt bin
    rw [initBlockSize, if_neg (by omega), if_neg (by omega), if_neg bin]
    omega

namespace Bounded

variable {s s' : State} {t g n page size : ℕ} {q : ℕ × ℕ}

theorem of_same (h : Bounded s) (page : s'.blockSize = s.blockSize)
    (queue : s'.queueBlockSize = s.queueBlockSize) : Bounded s' := by
  constructor
  · rw [page]
    exact h.page
  · rw [queue]
    exact h.queue

theorem blockTo {kind : Kind} (h : Bounded s) (run : s.blockTo kind page = some s') : Bounded s' := by
  simp only [State.blockTo] at run
  split at run
  · cases run
  · obtain rfl := Option.some.inj run
    exact h.of_same rfl rfl

theorem collectBlocks {tail : ℕ} (h : Bounded s) (run : State.collectBlocks n tail s = some s') :
    Bounded s' := by
  induction n generalizing tail s with
  | zero =>
    simp only [State.collectBlocks] at run
    split at run
    · exact h.of_same (by rw [Option.some.inj run]) (by rw [Option.some.inj run])
    · cases run
  | succ n ih =>
    simp only [State.collectBlocks] at run
    split at run
    · cases run
    · refine ih ?_ run
      exact h.of_same rfl rfl

theorem cxlPageFreeCollect (h : Bounded s) (run : s.cxlPageFreeCollect page n = some s') :
    Bounded s' := by
  obtain ⟨s₁, collected, rfl⟩ := Option.map_eq_some_iff.1 run
  have thread : Bounded s₁ := by
    rw [State.cxlThreadFreeCollect] at collected
    split at collected
    · exact h.of_same (by rw [Option.some.inj collected]) (by rw [Option.some.inj collected])
    · refine collectBlocks ?_ collected
      exact h.of_same rfl rfl
  rw [State.mergeLocalFree]
  split
  · exact thread.of_same rfl rfl
  · exact thread

theorem cxlPageFresh (h : Bounded s) (run : s.cxlPageFresh size q g = some (s', page)) :
    Bounded s' := by
  obtain ⟨s₂, same, -, -, rfl⟩ := State.cxlPageFresh_cases run
  have bounded : Bounded s₂ := h.of_same same.blockSize same.queueBlockSize
  constructor
  · intro p
    show update s₂.blockSize page _ p ≤ 1024
    by_cases here : p = page
    · subst here
      rw [update_self]
      exact (Nat.mod_le _ _).trans (h.queue q)
    · rw [update_of_ne here]
      exact bounded.page p
  · exact bounded.queue

theorem memset_le {m : ℕ → ℕ} {b k x : ℕ} (h : ∀ p, m p ≤ x) (p : ℕ) : memset m b k p ≤ x := by
  rw [memset]
  split
  · exact Nat.zero_le x
  · exact h p

theorem cxlSegmentFree (h : Bounded s) (run : s.cxlSegmentFree t g = some s') : Bounded s' := by
  have same := State.sameElse_removePages (q := (t, freePage)) (g := g) (pagesPerSegment - 1) s
  obtain ⟨removed, removed_eq⟩ : ∃ removed, removed =
    State.removePages (t, freePage) g (pagesPerSegment - 1) s := ⟨_, rfl⟩
  rw [← removed_eq] at same
  simp only [State.cxlSegmentFree, ← removed_eq] at run
  split at run
  · obtain rfl := Option.some.inj run
    constructor
    · apply memset_le
      rw [same.blockSize]
      exact h.page
    · show ∀ q, removed.queueBlockSize q ≤ 1024
      rw [same.queueBlockSize]
      exact h.queue
  · cases run

theorem cxlPageFree (h : Bounded s) (run : s.cxlPageFree t page q = some s') : Bounded s' := by
  have closed : Bounded ((((s.cxlPageQueueRemove q page).clearPage page).cxlPageQueuePush
      (t, freePage) page).decSegmentUsed (segmentIndex page)) := by
    constructor
    · intro p
      show update s.blockSize page 0 p ≤ 1024
      by_cases here : p = page
      · subst here
        simp
      · rw [update_of_ne here]
        exact h.page p
    · exact h.queue
  simp only [State.cxlPageFree] at run
  split at run
  · exact closed.cxlSegmentFree run
  · obtain rfl := Option.some.inj run
    exact closed

theorem cxlFree {special : Bool} {b : ℕ} (h : Bounded s) (run : s.cxlFree t special b = some s') :
    Bounded s' := by
  simp only [State.cxlFree] at run
  split at run
  · split at run
    · refine cxlPageFree ?_ run
      exact h.of_same rfl rfl
    · rw [← Option.some.inj run]
      exact h.of_same rfl rfl
  · split at run
    · rw [← Option.some.inj run]
      exact h.of_same rfl rfl
    · rw [← Option.some.inj run]
      exact h.of_same rfl rfl

/-- An allocation keeps the sizes, whatever is asked for. -/
theorem alloc {kind : Kind} (h : Bounded s) (run : step size s (.alloc t kind) = some s') :
    Bounded s' := by
  simp only [step] at run
  split at run
  swap
  · cases run
  simp only [State.allocStep] at run
  split at run
  · cases run
  split at run
  · exact h.blockTo run
  · obtain rfl := Option.some.inj run
    exact h.of_same rfl rfl

theorem find (h : Bounded s) (run : step size s (.find t g n) = some s') : Bounded s' := by
  simp only [step, State.findStep] at run
  split at run
  · cases run
  split at run
  · obtain ⟨⟨s₁, page₁⟩, fresh, taken⟩ := Option.bind_eq_some_iff.1 run
    have opened := h.cxlPageFresh fresh
    refine blockTo ?_ taken
    exact opened.of_same rfl rfl
  · obtain ⟨s₁, collected, taken⟩ := Option.bind_eq_some_iff.1 run
    have merged := h.cxlPageFreeCollect collected
    split at taken
    · refine blockTo ?_ taken
      exact merged.of_same rfl rfl
    · obtain rfl := Option.some.inj taken
      exact merged.of_same rfl rfl

theorem step {a : Action} (h : Bounded s) (run : Heap.step size s a = some s')
    (careful : Careful s a s') : Bounded s' := by
  cases a with
  | threadInit t =>
    simp only [Heap.step] at run
    split at run
    · obtain rfl := Option.some.inj run
      refine ⟨h.page, fun q => ?_⟩
      show (if q.1 = t then initBlockSize q.2 else s.queueBlockSize q) ≤ 1024
      split
      · exact initBlockSize_le_max q.2
      · exact h.queue q
    · cases run
  | alloc t kind => exact h.alloc run
  | find t g n => exact h.find run
  | free t special b =>
    simp only [Heap.step] at run
    split at run
    · exact h.cxlFree run
    · cases run
  | store b a v =>
    simp only [Heap.step] at run
    split at run
    · obtain rfl := Option.some.inj run
      exact h.of_same rfl rfl
    · cases run
  | putEntry t k v =>
    simp only [Heap.step] at run
    split at run
    · next ready =>
      have in_table : hashTableStart + (t - 1) * hashTableSize + 8 * k < segmentsAreaStart := by
        have bound : t ≤ 64 := careful
        have word := ready.2.2
        simp only [hashTableStart, hashTableSize, segmentsAreaStart]
        omega
      obtain rfl := Option.some.inj run
      rw [if_pos in_table]
      exact h
    · cases run

theorem of_reachable (h : Reachable (Heap.step size) Careful State.init s) : Bounded s :=
  Reachable.invariant ⟨fun _ => Nat.zero_le _, fun _ => Nat.zero_le _⟩
    (fun _ _ _ bounded run careful => bounded.step run careful) h

end Bounded

/-! ## Served requests -/

/-- The request ends without a fault, and is answered with a block that was not allocated and lies in
a page of one of the client's bins, with room for what it is for. -/
structure Served (size : ℕ) (s : State) (t : ℕ) (kind : Kind) : Prop where
  begins : ∃ s₁, step size s (.alloc t kind) = some s₁
  goes_on : ∀ n s₁, Request size t kind s n s₁ →
    s₁.call t = .idle ∨ ∃ g k s₂, step size s₁ (.find t g k) = some s₂
  ends : ∃ N, ∀ n s₁, Request size t kind s n s₁ → n ≤ N
  block : ∀ s', Answered size t kind s s' → ∃ b, s.allocated b = none ∧
    s'.allocated = update s.allocated b (some kind.special) ∧
    b ∈ pageBlocks s' (cxlPtrPage b) ∧ kind.bytes ≤ s'.blockSize (cxlPtrPage b) ∧
    ∃ i < cxlBinSize, InQueue s' (t, i) (cxlPtrPage b) ∧ (kind.special = false → 2 ≤ i)

section Serve

variable {size t n g : ℕ} {kind : Kind} {s s₁ : State} {before rest : List ℕ} {page : ℕ}

theorem Served.exists_answered (h : Served size s t kind) : ∃ s', Answered size t kind s s' := by
  obtain ⟨N, bound⟩ := h.ends
  by_contra none
  have reach : ∀ n, ∃ s₁, Request size t kind s n s₁ := by
    intro n
    induction n with
    | zero =>
      obtain ⟨s₁, run⟩ := h.begins
      exact ⟨s₁, .begins run⟩
    | succ n ih =>
      obtain ⟨s₁, run⟩ := ih
      rcases h.goes_on n s₁ run with idle | ⟨g, k, s₂, next⟩
      · exact absurd ⟨s₁, n, run, idle⟩ none
      · exact ⟨s₂, run.goes next⟩
  obtain ⟨s₁, run⟩ := reach (N + 1)
  have := bound _ _ run
  omega

/-- While the request is under way it has gone through as many pages as it has made rounds. -/
theorem request_state (inv : Inv s) (small : kind.bytes ≤ 1024) (run : Request size t kind s n s₁) :
    Inv s₁ ∧ ((∃ before rest page, Searching t kind s before rest page s₁ ∧ n = before.length) ∨
      (∃ l, Queued s (State.queueOf t kind) l ∧ n ≤ l.length + 1) ∧ ∃ b, Answer size t kind s b s₁) := by
  induction run with
  | begins run =>
    refine ⟨inv.step run small, ?_⟩
    rcases request_begins inv small run with ⟨rest, page, searching⟩ | answer
    · exact .inl ⟨[], rest, page, searching, rfl⟩
    · obtain ⟨home, place, pages, -⟩ := inv
      obtain ⟨l, dll, -⟩ := pages.queues (State.queueOf t kind)
      exact .inr ⟨⟨l, dll.1, Nat.zero_le _⟩, answer⟩
  | goes _ run ih =>
    obtain ⟨inv₁, searching | ⟨-, b, answer⟩⟩ := ih
    · refine ⟨inv₁.step run trivial, ?_⟩
      obtain ⟨before, rest, page, searching, rfl⟩ := searching
      rcases request_goes inv₁ searching run with ⟨rest', -, next⟩ | answer
      · exact .inl ⟨_, _, _, next, by simp⟩
      · exact .inr ⟨⟨_, searching.queue, by simp⟩, answer⟩
    · simp [step, State.findStep, answer.call] at run

theorem exists_blockTo (found : s.free page ≠ 0) (kind : Kind) : ∃ s', s.blockTo kind page = some s' :=
  ⟨_, if_neg found⟩

theorem free_cxlPageFresh {q : ℕ × ℕ} {s' : State} (run : s.cxlPageFresh size q g = some (s', page)) :
    s'.free page = cxlPageStart page := by
  obtain ⟨s₂, -, -, -, rfl⟩ := State.cxlPageFresh_cases run
  exact update_self _ _ _

/-- A fresh page has free blocks. -/
theorem Pages.free_ne_zero_of_fresh {home : Homes} {place : ℕ → Place} {s' : State} {i : ℕ}
    (pages : Pages home s) (blocks : Blocks home place 0 s) (registered : s.registered t = true)
    (bin : i < cxlBinSize) (run : s.cxlPageFresh size (t, i) g = some (s', page)) :
    s'.free page ≠ 0 := by
  obtain ⟨home', -, pages', -, here, -⟩ := pages.cxlPageFresh blocks registered bin run
  have isPage := (pages'.owned page t i here).1
  rw [free_cxlPageFresh run]
  exact Nat.ne_of_gt isPage.cxlPageStart_pos

/-- With a free page or a segment left, `cxl_page_fresh` brings a page. -/
theorem exists_cxlPageFresh {home : Homes} {i : ℕ} (pages : Pages home s)
    (registered : s.registered t = true) (bin : i < cxlBinSize)
    (left : s.first (t, freePage) ≠ 0 ∨ ∃ g, SegmentLeft size s g) :
    ∃ g s' page, s.cxlPageFresh size (t, i) g = some (s', page) := by
  have pos := initBlockSize_pos bin
  have bs : s.queueBlockSize (t, i) ≠ 0 := by
    rw [pages.queueBlockSize t i registered]
    omega
  by_cases none : s.first (t, freePage) = 0
  · obtain ⟨g, room, free⟩ := left.resolve_left (fun some => some none)
    obtain ⟨s', page, -, run, -⟩ := exists_pageFresh (q := (t, i)) none room free bs
    exact ⟨g, s', page, run⟩
  · refine ⟨0, ((s.takeFreePage t).1.cxlPageInit (i < 2) (s.takeFreePage t).2
      (s.queueBlockSize (t, i))).cxlPageQueuePush (t, i) (s.takeFreePage t).2,
      (s.takeFreePage t).2, ?_⟩
    rw [State.cxlPageFresh, State.cxlSegmentPageAlloc, if_neg (by exact none), Option.bind_some]
    exact if_neg bs

/-- A request that has not been answered goes on, if there is room. -/
theorem Searching.exists_step (h : Searching t kind s before rest page s₁) (inv : Inv s₁)
    (room : BlockLeft s (State.queueOf t kind) ∨ s.first (t, freePage) ≠ 0 ∨ ∃ g, SegmentLeft size s g) :
    ∃ g k s₂, step size s₁ (.find t g k) = some s₂ := by
  obtain ⟨home, place, pages, blocks⟩ := inv
  obtain ⟨registered, small, -⟩ := pages.call t kind page h.call
  by_cases last : page = 0
  · have none : ¬ BlockLeft s (State.queueOf t kind) := by
      rw [last] at h
      exact h.none_left
    have left := room.resolve_left none
    simp only [SegmentLeft, ← h.first, ← h.sasThreadId] at left
    have bin := cxlPageQueue_lt small
    obtain ⟨g, s₂, p, run⟩ := exists_cxlPageFresh (i := cxlPageQueue kind.special kind.size) pages
      registered bin left
    have some := pages.free_ne_zero_of_fresh blocks registered bin run
    rw [← State.queueOf] at run
    obtain ⟨s₃, taken⟩ := exists_blockTo (s := s₂.setCall t .idle) some kind
    refine ⟨g, 0, s₃, ?_⟩
    simp only [step, State.findStep, h.call, if_pos last, run, Option.bind_some]
    exact taken
  · obtain ⟨k, s₂, run⟩ := blocks.exists_collect page
    by_cases some : s₂.free page = 0
    · refine ⟨0, k, s₂.setCall t (.find kind (s₁.next page)), ?_⟩
      simp [step, State.findStep, h.call, last, run, some]
    · obtain ⟨s₃, taken⟩ := exists_blockTo (s := s₂.setCall t .idle) some kind
      refine ⟨0, k, s₃, ?_⟩
      simp [step, State.findStep, h.call, last, run, some, taken]

/-- The blocks of a bin have room for what the bin is chosen for. -/
theorem bytes_le_initBlockSize (small : kind.bytes ≤ 1024) :
    kind.bytes ≤ initBlockSize (cxlPageQueue kind.special kind.size) := by
  rw [Kind.size_eq small]
  cases kind with
  | rootRef => decide
  | msgQueue => decide
  | obj dataSize =>
    rw [Kind.special, Kind.bytes, initBlockSize_obj small]
    omega

theorem two_le_queueOf (object : kind.special = false) : 2 ≤ (State.queueOf t kind).2 := by
  simp only [State.queueOf, object, cxlPageQueue, Bool.false_eq_true, false_and, if_false]
  omega

/-- What the answer is worth. -/
theorem Answer.block {b : ℕ} {s' : State} (h : Answer size t kind s b s') (inv : Inv s')
    (small : kind.bytes ≤ 1024) : kind.bytes ≤ s'.blockSize (cxlPtrPage b) ∧
      ∃ i < cxlBinSize, InQueue s' (t, i) (cxlPtrPage b) ∧ (kind.special = false → 2 ≤ i) := by
  obtain ⟨home, place, pages, -⟩ := inv
  have bin := cxlPageQueue_lt small
  have here := (pages.inQueue _ _).1 h.queued
  rw [pages.blockSize _ _ _ here bin]
  exact ⟨bytes_le_initBlockSize small, _, bin, h.queued, two_le_queueOf (t := t)⟩

/-- What is left before a request decides whether it is served. -/
def Supplied (size : ℕ) (s : State) (t : ℕ) (kinds : List Kind) : Prop :=
  PagesLeft size s t (pagesNeeded s t kinds)

theorem finite_freePages (inv : Inv s) (t : ℕ) : (freePages s t).Finite := by
  obtain ⟨home, place, pages, -⟩ := inv
  obtain ⟨l, dll, -⟩ := pages.queues (t, freePage)
  apply (List.finite_toSet l).subset
  rintro p ⟨l', queued, mem⟩
  rwa [Chain.unique queued dll.1] at mem

theorem freePages_nonempty_iff (inv : Inv s) : (freePages s t).Nonempty ↔ s.first (t, freePage) ≠ 0 := by
  obtain ⟨home, place, pages, -⟩ := inv
  obtain ⟨l, dll, -⟩ := pages.queues (t, freePage)
  constructor
  · rintro ⟨p, l', queued, mem⟩ none
    rw [Queued, none, chain_null] at queued
    subst queued
    exact List.not_mem_nil mem
  · intro some
    obtain ⟨rest, rfl, -⟩ := dll.1.exists_cons some
    exact ⟨_, _, dll.1, List.mem_cons_self⟩

theorem pagesNeeded_cons (s : State) (t : ℕ) (kind : Kind) (kinds : List Kind) :
    BlockLeft s (State.queueOf t kind) ∧ pagesNeeded s t (kind :: kinds) = pagesNeeded s t kinds ∨
      ¬ BlockLeft s (State.queueOf t kind) ∧
        pagesNeeded s t (kind :: kinds) = pagesNeeded s t kinds + 1 := by
  by_cases left : BlockLeft s (State.queueOf t kind)
  · exact .inl ⟨left, by simp [pagesNeeded, left]⟩
  · exact .inr ⟨left, by simp [pagesNeeded, left]⟩

/-- One request: a block of the bin, a free page or a segment. -/
theorem supplied_singleton_iff (inv : Inv s) : Supplied size s t [kind] ↔
    BlockLeft s (State.queueOf t kind) ∨ s.first (t, freePage) ≠ 0 ∨ ∃ g, SegmentLeft size s g := by
  have none : pagesNeeded s t [] = 0 := rfl
  rw [Supplied, PagesLeft, ← freePages_nonempty_iff inv, ← Set.ncard_pos (finite_freePages inv t)]
  rcases pagesNeeded_cons s t kind [] with ⟨left, needed⟩ | ⟨left, needed⟩
  · simp [needed, none, left]
  · simp [needed, none, left, Nat.succ_le_iff]

theorem request_bounded (bounded : Bounded s) (run : Request size t kind s n s₁) : Bounded s₁ := by
  induction run with
  | begins run => exact bounded.alloc run
  | goes _ run ih => exact ih.find run

/-- A request by an idle client is served exactly when there is a bin for it and something left. -/
theorem served_iff (inv : Inv s) (bounded : Bounded s) (registered : s.registered t = true)
    (idle : s.call t = .idle) :
    Served size s t kind ↔ kind.bytes ≤ 1024 ∧ Supplied size s t [kind] := by
  constructor
  · intro served
    obtain ⟨s', n, run, done⟩ := served.exists_answered
    obtain ⟨b, -, -, -, room, -⟩ := served.block s' ⟨n, run, done⟩
    have small : kind.bytes ≤ 1024 := room.trans ((request_bounded bounded run).page _)
    refine ⟨small, (supplied_singleton_iff inv).2 ?_⟩
    obtain ⟨-, ⟨before, rest, page, searching, -⟩ | ⟨-, b', answer⟩⟩ := request_state inv small run
    · rw [searching.call] at done
      cases done
    · rw [← freePages_nonempty_iff inv]
      rcases answer.origin with ⟨left, -⟩ | ⟨-, ⟨⟨page, mem, -⟩, -⟩ | ⟨segment, -⟩⟩
      · exact .inl left
      · exact .inr (.inl ⟨page, mem⟩)
      · exact .inr (.inr segment)
  · rintro ⟨small, supplied⟩
    have room := (supplied_singleton_iff inv).1 supplied
    refine ⟨?_, ?_, ?_, ?_⟩
    · have below : ¬ freePage < (State.queueOf t kind).2 := Nat.lt_asymm (cxlPageQueue_lt small)
      simp only [step, registered, idle, State.allocStep, if_neg below, and_self, if_true]
      split
      · next found => exact exists_blockTo found.2 kind
      · exact ⟨_, rfl⟩
    · intro n s₁ run
      obtain ⟨inv₁, ⟨before, rest, page, searching, -⟩ | ⟨-, b, answer⟩⟩ :=
        request_state inv small run
      · exact .inr (searching.exists_step inv₁ room)
      · exact .inl answer.call
    · obtain ⟨home, place, pages, -⟩ := id inv
      obtain ⟨l, dll, -⟩ := pages.queues (State.queueOf t kind)
      refine ⟨l.length + 1, fun n s₁ run => ?_⟩
      obtain ⟨-, ⟨before, rest, page, searching, rfl⟩ | ⟨⟨l', queued, bound⟩, -⟩⟩ :=
        request_state inv small run
      · rw [← Chain.unique searching.queue dll.1, List.length_append]
        omega
      · rwa [← Chain.unique queued dll.1]
    · rintro s' ⟨n, run, done⟩
      obtain ⟨inv', ⟨before, rest, page, searching, -⟩ | ⟨-, b, answer⟩⟩ := request_state inv small run
      · rw [searching.call] at done
        cases done
      · exact ⟨b, answer.fresh, answer.allocated, answer.inside, answer.block inv' small⟩

/-! ## Requests one after the other -/

/-- Each of the requests is served. -/
def ServedAll (size t : ℕ) : List Kind → State → Prop
  | [], _ => True
  | kind :: kinds, s => Served size s t kind ∧
      ∀ s', Answered size t kind s s' → ServedAll size t kinds s'

/-- A block that is left in another bin is left there after the request. -/
theorem Answer.blockLeft_iff {kind' : Kind} {b : ℕ} {s' : State} (h : Answer size t kind s b s')
    (inv : Inv s) (inv' : Inv s') (bin : (State.queueOf t kind').2 < cxlBinSize)
    (other : State.queueOf t kind' ≠ State.queueOf t kind) :
    BlockLeft s' (State.queueOf t kind') ↔ BlockLeft s (State.queueOf t kind') := by
  obtain ⟨home, place, pages, -⟩ := inv
  obtain ⟨home', place', pages', -⟩ := inv'
  have queue (p : ℕ) : InQueue s' (State.queueOf t kind') p ↔ InQueue s (State.queueOf t kind') p :=
    h.others _ _ p bin other
  refine exists_congr fun p => ?_
  rw [queue]
  refine and_congr_right fun queued => ?_
  have here := (pages.inQueue _ _).1 queued
  have here' := (pages'.inQueue _ _).1 ((queue p).2 queued)
  have blocks : pageBlocks s' p = pageBlocks s p := by
    rw [pageBlocks, pageBlocks, pages.blockSize _ _ _ here bin, pages'.blockSize _ _ _ here' bin]
  rw [blocks]
  refine exists_congr fun x => and_congr_right fun inside => ?_
  -- the block that has been handed out is not in this bin
  have different : x ≠ b := by
    rintro rfl
    have inPage := (pages.mem_pageBlocks here bin).1 inside
    have record := inPage.cxlPtrPage_eq le_rfl (Nat.lt_add_of_pos_right (initBlockSize_pos bin))
    have there := (pages'.inQueue _ _).1 h.queued
    rw [record, here'] at there
    exact other (Option.some.inj there)
  rw [h.allocated, update_of_ne different]

/-- After a request there are pages left for the next one exactly when there were enough for both. -/
theorem Answer.supplied_iff {kinds : List Kind} {b : ℕ} {s' : State} (h : Answer size t kind s b s')
    (inv : Inv s) (inv' : Inv s') (small : ∀ k ∈ kinds, k.bytes ≤ 1024)
    (other : ∀ k ∈ kinds, State.queueOf t k ≠ State.queueOf t kind) (few : kinds.length ≤ 1) :
    Supplied size s' t kinds ↔ Supplied size s t (kind :: kinds) := by
  have needed : pagesNeeded s' t kinds = pagesNeeded s t kinds := by
    apply List.countP_congr
    intro k mem
    simp only [decide_eq_true_eq]
    exact not_congr (h.blockLeft_iff inv inv' (cxlPageQueue_lt (small k mem)) (other k mem))
  have bound : pagesNeeded s t kinds ≤ 1 := List.countP_le_length.trans few
  rw [Supplied, Supplied, PagesLeft, PagesLeft, needed]
  rcases h.origin with ⟨left, free, sas⟩ | ⟨left, ⟨⟨page, mem, free⟩, sas⟩ | ⟨segment, some⟩⟩
  · obtain ⟨-, count⟩ | ⟨none, -⟩ := pagesNeeded_cons s t kind kinds
    · simp only [SegmentLeft, count, free, sas]
    · exact absurd left none
  · obtain ⟨some, -⟩ | ⟨-, count⟩ := pagesNeeded_cons s t kind kinds
    · exact absurd some left
    · have pos := (Set.ncard_pos (finite_freePages inv t)).2 ⟨page, mem⟩
      simp only [SegmentLeft, count, free, sas, Set.ncard_sdiff_singleton_of_mem mem]
      refine or_congr_left ?_
      omega
  · refine iff_of_true (.inl ?_) (.inr segment)
    have pos := (Set.ncard_pos (finite_freePages inv' t)).2 some
    omega

end Serve

/-! ## Requests without an answer -/

section Unanswered

variable {size t n g k : ℕ} {kind : Kind} {s s₁ s₂ : State} {before rest : List ℕ} {page : ℕ}
  {home : Homes} {place : ℕ → Place}

/-- A page of a queue with a free block has a block left. -/
theorem Blocks.blockLeft (pages : Pages home s) (h : Blocks home place 0 s) {q : ℕ × ℕ}
    (here : home page = some q) (found : s.free page ≠ 0) : BlockLeft s q := by
  obtain ⟨listed, record⟩ := h.place_free found
  have placed : place (s.free page) ≠ .outside := by simp [listed]
  obtain ⟨u, i, here', bin, -⟩ := (h.block _).1 placed
  rw [record, here] at here'
  obtain rfl := Option.some.inj here'
  refine ⟨page, (pages.inQueue _ _).2 here, _, (mem_pageBlocks_iff pages h here bin).2 ⟨record, placed⟩,
    ?_⟩
  rw [Option.eq_none_iff_forall_ne_some]
  intro special again
  rw [h.allocated, listed] at again
  cases again

/-- One more page without a block; this is for queues of all kinds. -/
theorem Searching.goes (h : Searching t kind s before rest page s₁) (inv : Inv (s₁.setCall t .idle))
    (none : ¬ BlockLeft s (State.queueOf t kind)) (last : page ≠ 0)
    (run : step size s₁ (.find t g k) = some s₂) :
    Inv (s₂.setCall t .idle) ∧ ∃ rest', rest = page :: rest' ∧
      Searching t kind s (before ++ [page]) rest' (s.next page) s₂ := by
  obtain ⟨home, place, pages, blocks⟩ := inv
  have blocks₁ : Blocks home place 0 s₁ := blocks.of_same rfl rfl rfl rfl rfl rfl
  simp only [step, State.findStep, h.call, if_neg last] at run
  obtain ⟨s₃, collected, run⟩ := Option.bind_eq_some_iff.1 run
  obtain ⟨same, place₃, blocks₃⟩ := blocks₁.cxlPageFreeCollect collected
  have pages₃ : Pages home (s₃.setCall t .idle) := by
    refine pages.of_samePages ⟨same.1, same.2, same.3, same.4, same.5, same.6, same.7, same.8,
      same.9, ?_⟩
    show update s₃.call t .idle = update s₁.call t .idle
    rw [same.call]
  have blocks₄ : Blocks home place₃ 0 (s₃.setCall t .idle) :=
    blocks₃.of_same rfl rfl rfl rfl rfl rfl
  have fixed := (State.allocated_cxlPageFreeCollect collected).trans h.allocated
  have queue (p : ℕ) : InQueue (s₃.setCall t .idle) (State.queueOf t kind) p ↔
      InQueue s (State.queueOf t kind) p := by
    simp only [InQueue, Queued, State.setCall, same.first, same.next, h.first, h.next]
  obtain ⟨rest', rfl, tail⟩ := h.cursor.exists_cons last
  have queued : InQueue s (State.queueOf t kind) page := ⟨_, h.queue, by simp⟩
  have here : home page = some (State.queueOf t kind) := by
    rw [← pages₃.inQueue, queue]
    exact queued
  have full : s₃.free page = 0 := by
    by_contra found
    obtain ⟨p, queued, b, inside, free⟩ := blocks₄.blockLeft pages₃ here found
    refine none ⟨p, (queue p).1 queued, b, ?_, ?_⟩
    · simpa only [pageBlocks, State.setCall, same.blockSize, h.blockSize] using inside
    · rw [← fixed]
      exact free
  simp only [full, ne_eq, not_true_eq_false, if_false] at run
  obtain rfl := Option.some.inj run
  refine ⟨⟨home, place₃, ?_, blocks₃.of_same rfl rfl rfl rfl rfl rfl⟩, rest', rfl, ?_,
    same.first.trans h.first, same.next.trans h.next, same.sasThreadId.trans h.sasThreadId,
    same.blockSize.trans h.blockSize, fixed, same.registered.trans h.registered,
    by simpa using h.queue, tail, ?_⟩
  · simpa only [State.setCall, update_idem] using pages₃
  · rw [← h.next]
    exact update_self _ _ _
  · intro p mem b inside free
    refine none ⟨p, ⟨_, h.queue, ?_⟩, b, inside, free⟩
    rcases List.mem_append.1 mem with mem | mem
    · exact List.mem_append_left _ mem
    · exact List.mem_append_right _ (List.mem_cons.2 (.inl (List.mem_singleton.1 mem)))

theorem request_searches (inv : Inv s) (none : ¬ BlockLeft s (State.queueOf t kind))
    (run : step size s (.alloc t kind) = some s₁) :
    Inv (s₁.setCall t .idle) ∧ ∃ rest page, Searching t kind s [] rest page s₁ := by
  obtain ⟨home, place, pages, blocks⟩ := inv
  simp only [step] at run
  split at run
  swap
  · cases run
  simp only [State.allocStep] at run
  split at run
  · cases run
  split at run
  · next found =>
    have here := Lists.home_first pages.queues found.1
    exact absurd (blocks.blockLeft pages here found.2) none
  · obtain rfl := Option.some.inj run
    obtain ⟨l, dll, -⟩ := pages.queues (State.queueOf t kind)
    refine ⟨⟨home, place, ?_, blocks.of_same rfl rfl rfl rfl rfl rfl⟩, l, _, update_self _ _ _, rfl, rfl,
      rfl, rfl, rfl, rfl, dll.1, dll.1, by simp⟩
    have idle : Pages home (s.setCall t .idle) := pages.setCall (by simp)
    simpa only [State.setCall, update_idem] using idle

/-- Without a block in the queue and without pages a request does not get an answer, whatever it asks
for. -/
theorem request_unanswered (inv : Inv s) (none : ¬ BlockLeft s (State.queueOf t kind))
    (empty : s.first (t, freePage) = 0) (taken : ∀ g, ¬ SegmentLeft size s g)
    (run : Request size t kind s n s₁) :
    Inv (s₁.setCall t .idle) ∧ ∃ before rest page, Searching t kind s before rest page s₁ := by
  induction run with
  | begins run =>
    obtain ⟨inv', rest, page, h⟩ := request_searches inv none run
    exact ⟨inv', [], rest, page, h⟩
  | goes _ run ih =>
    obtain ⟨inv₁, before, rest, page, h⟩ := ih
    by_cases last : page = 0
    · simp only [step, State.findStep, h.call, if_pos last] at run
      obtain ⟨⟨s₃, page₃⟩, fresh, -⟩ := Option.bind_eq_some_iff.1 run
      have left := segmentLeft_of_cxlPageFresh (by rw [h.first]; exact empty) fresh
      rw [SegmentLeft, h.sasThreadId] at left
      exact absurd left (taken _)
    · obtain ⟨inv₂, rest', -, h'⟩ := h.goes inv₁ none last run
      exact ⟨inv₂, _, _, _, h'⟩

/-- Such a request comes to the end of the queue. -/
theorem request_to_end (none : ¬ BlockLeft s (State.queueOf t kind)) (inv : Inv (s₁.setCall t .idle))
    (run : Request size t kind s n s₁) (h : Searching t kind s before rest page s₁) :
    ∃ n s₂ before, Request size t kind s n s₂ ∧ Searching t kind s before [] 0 s₂ := by
  induction rest generalizing n s₁ before page with
  | nil =>
    obtain rfl : page = 0 := h.cursor
    exact ⟨n, s₁, before, run, h⟩
  | cons p rest ih =>
    obtain ⟨rfl, last, -⟩ := chain_cons.1 h.cursor
    have ⟨home, place, pages, blocks⟩ := inv
    have blocks₁ : Blocks home place 0 s₁ := blocks.of_same rfl rfl rfl rfl rfl rfl
    obtain ⟨k, s₂, collected⟩ := blocks₁.exists_collect page
    obtain ⟨s₃, next⟩ : ∃ s₃, step size s₁ (.find t 0 k) = some s₃ := by
      simp only [step, State.findStep, h.call, if_neg last, collected, Option.bind_some]
      split
      · next found => exact exists_blockTo (s := s₂.setCall t .idle) found kind
      · exact ⟨_, rfl⟩
    obtain ⟨inv₃, rest', same, h'⟩ := h.goes inv none last next
    obtain ⟨-, rfl⟩ := List.cons.inj same
    exact ih inv₃ (run.goes next) h'

end Unanswered

end CxlShm.Heap
