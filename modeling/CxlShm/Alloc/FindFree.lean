import CxlShm.Alloc.FreshObjects

/-!
# Free memory is used again

`cxl_page_queue_find_free_ex` looks at the pages of a queue in order and collects for each of them,
which empties the chain of a whole segment and changes the lists of other pages of the queue, before
and behind it.  Collecting moves blocks from list to list within their page, so what the search
finds is what the queue had when it began: the first page with a block, or none.
-/

namespace CxlShm.Heap

open Linked Function Reachability

namespace State

/-- The loop of `cxl_page_queue_find_free_ex`, in which the collecting for the pages takes these
numbers of rounds, with the page that it ends with. -/
def findFreeLoop : List ℕ → ℕ → State → Option (State × ℕ)
  | [], page, s => if page = 0 then some (s, page) else none
  | n :: ns, page, s =>
    if page = 0 then none
    else
      let next := s.next page
      (s.cxlPageFreeCollect page n).bind fun s =>
        if s.free page ≠ 0 then some (s, page) else findFreeLoop ns next s

/-- `cxl_page_queue_find_free_ex`; a new segment, if it takes one, is `g`. -/
def cxlPageQueueFindFreeEx (s : State) (size : ℕ) (pq : ℕ × ℕ) (g : ℕ) (ns : List ℕ) :
    Option (State × ℕ) :=
  (findFreeLoop ns (s.first pq) s).bind fun (s, page) =>
    if page = 0 then s.cxlPageFresh size pq g else some (s, page)

end State

/-- No block is lost or given to two: each block of a page in a bin is in one place again, the pages
that were in bins still are, cut into the same blocks, of which the same are allocated. -/
structure KeepsBlocks (s s' : State) : Prop where
  before : Partition s
  after : Partition s'
  inUse : ∀ page, InUse s page → InUse s' page
  blocks : ∀ page, InUse s page → pageBlocks s' page = pageBlocks s page
  allocated : s'.allocated = s.allocated

/-- The search has found `page`, the first one of the queue with a block, and it has left the pages
before it without one. -/
def FoundFirst (s : State) (l : List ℕ) (s' : State) (page : ℕ) : Prop :=
  ∃ before after, l = before ++ page :: after ∧ HasBlock s page ∧ HasBlock s' page ∧
    ∀ p ∈ before, ¬ HasBlock s p ∧ ¬ HasBlock s' p

section Search

variable {home : Homes} {place : ℕ → Place} {s s' : State} {page t i g size : ℕ} {l ns : List ℕ}

/-- What the loop keeps, with its way along the rest `l` of the queue. -/
theorem Blocks.findFreeLoop (pages : Pages home s) (h : Blocks home place 0 s) (bin : i < cxlBinSize)
    (here : ∀ p ∈ l, home p = some (t, i)) (cursor : Chain s.next 0 page l) {found : ℕ}
    (run : State.findFreeLoop ns page s = some (s', found)) :
    s.SamePages s' ∧ s'.allocated = s.allocated ∧ (∃ place', Blocks home place' 0 s') ∧
      (found = 0 ∧ (∀ p ∈ l, ¬ HasBlock s p) ∨
        found ≠ 0 ∧ s'.free found ≠ 0 ∧ ∃ before after, l = before ++ found :: after ∧
          ∀ p ∈ before, ¬ HasBlock s p) := by
  induction ns generalizing page l s place with
  | nil =>
    simp only [State.findFreeLoop] at run
    split at run
    · next last =>
      obtain ⟨rfl, rfl⟩ := Prod.mk.inj (Option.some.inj run)
      rw [last, chain_null] at cursor
      subst cursor
      exact ⟨.refl s, rfl, ⟨place, h⟩, .inl ⟨last, by simp⟩⟩
    · cases run
  | cons n ns ih =>
    simp only [State.findFreeLoop] at run
    split at run
    · cases run
    next some =>
    obtain ⟨rest, rfl, tail⟩ := cursor.exists_cons some
    obtain ⟨s₁, collected, rest_run⟩ := Option.bind_eq_some_iff.1 run
    obtain ⟨same, place₁, h₁⟩ := h.cxlPageFreeCollect collected
    have allocated := State.allocated_cxlPageFreeCollect collected
    have at_home := here page List.mem_cons_self
    split at rest_run
    · next free =>
      obtain ⟨rfl, rfl⟩ := Prod.mk.inj (Option.some.inj rest_run)
      exact ⟨same, allocated, ⟨place₁, h₁⟩, .inr ⟨some, free, [], rest, rfl, by simp⟩⟩
    · next empty =>
      have empty : s₁.free page = 0 := not_not.1 empty
      have none : ¬ HasBlock s page := by
        rw [← h.hasBlock_collect pages at_home bin collected]
        exact State.not_hasBlock_of_collected collected empty
      have here_rest : ∀ p ∈ rest, home p = Option.some (t, i) := fun p mem =>
        here p (List.mem_cons_of_mem _ mem)
      rw [← same.next] at tail rest_run
      obtain ⟨same', allocated', kept, outcome⟩ :=
        ih (pages.of_samePages same) h₁ here_rest tail rest_run
      have still : ∀ p ∈ rest, (HasBlock s₁ p ↔ HasBlock s p) := fun p mem =>
        h.hasBlock_collect pages (here_rest p mem) bin collected
      refine ⟨same'.after same, allocated'.trans allocated, kept, ?_⟩
      rcases outcome with ⟨last, full⟩ | ⟨found_some, free, before, after, rfl, full⟩
      · refine .inl ⟨last, fun p mem => ?_⟩
        rcases List.mem_cons.1 mem with rfl | mem
        · exact none
        · rw [← still p mem]
          exact full p mem
      · refine .inr ⟨found_some, free, page :: before, after, rfl, fun p mem => ?_⟩
        rcases List.mem_cons.1 mem with rfl | mem
        · exact none
        · rw [← still p (List.mem_append_left _ mem)]
          exact full p mem

/-- The loop comes to an end. -/
theorem Blocks.exists_findFreeLoop (h : Blocks home place 0 s) (cursor : Chain s.next 0 page l) :
    ∃ ns r, State.findFreeLoop ns page s = some r := by
  induction l generalizing page s place with
  | nil =>
    obtain rfl := cursor
    exact ⟨[], _, if_pos rfl⟩
  | cons p l ih =>
    obtain ⟨rfl, some, tail⟩ := cursor
    obtain ⟨n, s₁, collected⟩ := h.exists_collect page
    obtain ⟨same, place₁, h₁⟩ := h.cxlPageFreeCollect collected
    by_cases free : s₁.free page = 0
    · rw [← same.next] at tail
      obtain ⟨ns, r, rest⟩ := ih h₁ tail
      refine ⟨n :: ns, r, ?_⟩
      simp only [State.findFreeLoop, if_neg some, collected, Option.bind_some, free, ne_eq,
        not_true_eq_false, if_false, ← same.next]
      exact rest
    · refine ⟨[n], (s₁, page), ?_⟩
      simp only [State.findFreeLoop, if_neg some, collected, Option.bind_some]
      exact if_pos free

/-- A page of the client leaves the free pages for the bin, and nothing else changes. -/
theorem Pages.keepsBlocks_of_fresh (pages : Pages home s) (blocks : Blocks home place 0 s)
    (registered : s.registered t = true) (bin : i < cxlBinSize)
    (run : s.cxlPageFresh size (t, i) g = some (s', page)) : KeepsBlocks s s' := by
  obtain ⟨home', place', pages', blocks', -, -, home₂, opened, was_free, bins, -⟩ :=
    pages.cxlPageFresh blocks registered bin run
  have stays (p u k : ℕ) (bin_k : k < cxlBinSize) (here : home p = some (u, k)) :
      home' p = some (u, k) := by
    have here₂ := (bins p u k bin_k).2 here
    have other : p ≠ page := by
      rintro rfl
      rw [was_free] at here₂
      have index : freePage = k := congrArg Prod.snd (Option.some.inj here₂)
      exact Nat.lt_irrefl _ (index.trans_lt bin_k)
    rw [opened, update_of_ne other]
    exact here₂
  refine ⟨Inv.partition ⟨home, place, pages, blocks⟩, Inv.partition ⟨home', place', pages', blocks'⟩,
    ?_, ?_, State.allocated_cxlPageFresh run⟩
  · rintro p ⟨u, k, bin_k, queued⟩
    rw [pages.inQueue] at queued
    exact ⟨u, k, bin_k, (pages'.inQueue _ _).2 (stays p u k bin_k queued)⟩
  · rintro p ⟨u, k, bin_k, queued⟩
    rw [pages.inQueue] at queued
    have old := pages.blockSize p u k queued bin_k
    have new := pages'.blockSize p u k (stays p u k bin_k queued) bin_k
    rw [pageBlocks, pageBlocks, old, new]

theorem KeepsBlocks.trans {s'' : State} (h : KeepsBlocks s s') (h' : KeepsBlocks s' s'') :
    KeepsBlocks s s'' :=
  ⟨h.before, h'.after, fun p used => h'.inUse p (h.inUse p used),
    fun p used => (h'.blocks p (h.inUse p used)).trans (h.blocks p used),
    h'.allocated.trans h.allocated⟩

/-- The loop only moves blocks. -/
theorem Blocks.keepsBlocks_of_samePages {place' : ℕ → Place} (pages : Pages home s)
    (h : Blocks home place 0 s) (same : s.SamePages s') (h' : Blocks home place' 0 s')
    (allocated : s'.allocated = s.allocated) : KeepsBlocks s s' := by
  refine ⟨Inv.partition ⟨home, place, pages, h⟩,
    Inv.partition ⟨home, place', pages.of_samePages same, h'⟩, ?_, ?_, allocated⟩
  · rintro p ⟨u, k, bin, queued⟩
    refine ⟨u, k, bin, ?_⟩
    rw [(pages.of_samePages same).inQueue, ← pages.inQueue]
    exact queued
  · intro p _
    rw [pageBlocks, pageBlocks, same.blockSize]

end Search

/-- In every state of the allocator in which the queue has a block left or the client can get a page,
the search ends.  It brings a page with a free block and keeps the blocks: the first page of the queue
with a block, and a fresh page only if the queue had no block when the search began. -/
theorem cxlPageQueueFindFreeEx_reuses {size t i : ℕ} {s : State} {l : List ℕ} (inv : Inv s)
    (registered : s.registered t = true) (bin : i < cxlBinSize) (queue : Queued s (t, i) l)
    (left : (∃ page ∈ l, HasBlock s page) ∨ s.first (t, freePage) ≠ 0 ∨ ∃ g, SegmentLeft size s g) :
    (∃ g ns r, s.cxlPageQueueFindFreeEx size (t, i) g ns = some r) ∧
      ∀ g ns s' page, s.cxlPageQueueFindFreeEx size (t, i) g ns = some (s', page) →
        s'.free page ≠ 0 ∧ KeepsBlocks s s' ∧ Inv s' ∧
          (State.findFreeLoop ns (s.first (t, i)) s = some (s', page) ∧ FoundFirst s l s' page ∨
            (∀ p ∈ l, ¬ HasBlock s p) ∧ ∃ s₁,
              State.findFreeLoop ns (s.first (t, i)) s = some (s₁, 0) ∧
                s₁.cxlPageFresh size (t, i) g = some (s', page)) := by
  obtain ⟨home, place, pages, blocks⟩ := inv
  have here : ∀ p ∈ l, home p = some (t, i) := fun p mem =>
    (pages.inQueue (t, i) p).1 ⟨l, queue, mem⟩
  constructor
  · obtain ⟨ns, ⟨s₁, found⟩, run⟩ := blocks.exists_findFreeLoop queue
    obtain ⟨same, -, -, outcome⟩ := blocks.findFreeLoop pages bin here queue run
    rcases outcome with ⟨last, full⟩ | ⟨some, -⟩
    · have none : ¬ ∃ page ∈ l, HasBlock s page := by
        rintro ⟨p, mem, has⟩
        exact full p mem has
      have room := left.resolve_left none
      simp only [SegmentLeft, ← same.first, ← same.sasThreadId] at room
      obtain ⟨g, s', page, fresh⟩ := exists_cxlPageFresh (pages.of_samePages same)
        (same.registered ▸ registered) bin room
      refine ⟨g, ns, (s', page), ?_⟩
      rw [State.cxlPageQueueFindFreeEx, run, Option.bind_some]
      exact (if_pos last).trans fresh
    · refine ⟨0, ns, (s₁, found), ?_⟩
      rw [State.cxlPageQueueFindFreeEx, run, Option.bind_some]
      exact if_neg some
  · intro g ns s' page run
    obtain ⟨⟨s₁, found⟩, loop, rest⟩ := Option.bind_eq_some_iff.1 run
    obtain ⟨same, allocated, ⟨place₁, blocks₁⟩, outcome⟩ :=
      blocks.findFreeLoop pages bin here queue loop
    have pages₁ := pages.of_samePages same
    have kept := blocks.keepsBlocks_of_samePages pages same blocks₁ allocated
    have still (p : ℕ) (mem : p ∈ l) : HasBlock s₁ p ↔ HasBlock s p := by
      have blocks_eq : pageBlocks s₁ p = pageBlocks s p := by
        rw [pageBlocks, pageBlocks, same.blockSize]
      rw [blocks₁.hasBlock_iff pages₁ (here p mem) bin, blocks.hasBlock_iff pages (here p mem) bin,
        blocks_eq, allocated]
    rcases outcome with ⟨rfl, full⟩ | ⟨some, free, before, after, rfl, full⟩
    · simp only [if_pos] at rest
      have client : s₁.registered t = true := by rw [same.registered, registered]
      obtain ⟨home', place', pages', blocks', -⟩ := pages₁.cxlPageFresh blocks₁ client bin rest
      exact ⟨pages₁.free_ne_zero_of_fresh blocks₁ client bin rest,
        kept.trans (pages₁.keepsBlocks_of_fresh blocks₁ client bin rest),
        ⟨home', place', pages', blocks'⟩, .inr ⟨full, s₁, loop, rest⟩⟩
    · simp only [if_neg some] at rest
      obtain ⟨rfl, rfl⟩ := Prod.mk.inj (Option.some.inj rest)
      have has : HasBlock s₁ found := .inl free
      refine ⟨free, kept, ⟨home, place₁, pages₁, blocks₁⟩, .inl ⟨loop, before, after, rfl, ?_, has, ?_⟩⟩
      · rw [← still found (by simp)]
        exact has
      · intro p mem
        rw [still p (List.mem_append_left _ mem)]
        exact ⟨full p mem, full p mem⟩

/-! ## A page that is used up -/

/-- A client takes `RootRef`s until the first page of the queue has none on `free`. -/
theorem exists_drained {size t page : ℕ} {s : State} {l : List ℕ}
    (reached : Reachable (step size) Careful State.init s) (registered : s.registered t = true)
    (idle : s.call t = .idle) (first : s.first (t, 0) = page) (some : page ≠ 0)
    (chain : Chain s.blockNext 0 (s.free page) l) :
    ∃ s', Reachable (step size) Careful State.init s' ∧ s'.free page = 0 ∧ s.SamePages s' ∧
      s'.info = s.info ∧ ∀ b, s.allocated b = Option.some true → s'.allocated b = Option.some true := by
  induction l generalizing s with
  | nil => exact ⟨s, reached, chain, .refl s, rfl, fun _ live => live⟩
  | cons b l ih =>
    obtain ⟨head, used, tail⟩ := chain
    have has : s.free page ≠ 0 := head ▸ used
    have run : step size s (.alloc t .rootRef) = Option.some { s with
        used := update s.used page (inc32 (s.used page))
        free := update s.free page (s.blockNext (s.free page))
        allocated := update s.allocated (s.free page) (Option.some true) } := by
      have queue : State.queueOf t .rootRef = (t, 0) := rfl
      simp only [step, State.allocStep, queue, first]
      rw [if_pos ⟨registered, idle⟩, if_neg (by decide), if_pos ⟨some, has⟩]
      exact if_neg has
    have shorter : Chain s.blockNext 0 (update s.free page (s.blockNext (s.free page)) page) l := by
      rw [update_self, head]
      exact tail
    obtain ⟨s', reached', empty, same, info, live⟩ :=
      ih (reached.next run (show Kind.rootRef.bytes ≤ 1024 by decide)) registered idle first shorter
    refine ⟨s', reached', empty, same.after ⟨rfl, rfl, rfl, rfl, rfl, rfl, rfl, rfl, rfl, rfl⟩, info,
      fun x allocated => live x ?_⟩
    by_cases at_x : x = s.free page
    · rw [at_x]
      exact update_self ..
    · exact (update_of_ne at_x ..).trans allocated

/-- Client 1 has one page of `RootRef`s and its first block; client 2 is there too. -/
def opened (s : State) : Bool :=
  s.registered 1 && s.registered 2 && decide (s.call 1 = .idle) && decide (s.call 2 = .idle) &&
    decide (s.first (1, 0) = firstPage) && decide (s.next firstPage = 0) &&
    decide (s.segmentThreadId 0 = 1) && decide (s.info 0 = ⟨.normal, 0⟩) &&
    decide (s.allocated (cxlPageStart firstPage) = some true)

/-- The page is used up, and client 2 has freed a block of it. -/
theorem exists_returned : ∃ s, Reachable (step (1 <<< 28)) Careful State.init s ∧
    s.registered 1 = true ∧ Queued s (1, 0) [firstPage] ∧ s.free firstPage = 0 ∧
    (s.info 0).threadFree = cxlPageStart firstPage := by
  have run : (checkedRun (step (1 <<< 28)) carefulCheck State.init
      [.threadInit 1, .threadInit 2, .alloc 1 .rootRef, .find 1 0 0]).any opened = true := by
    decide +kernel
  obtain ⟨s, reached, found⟩ := exists_reachable_of_checkedRun (J := fun _ => True)
    (fun _ _ _ _ _ passed => ⟨trivial, careful_of_check passed⟩) trivial run
  simp only [opened, Bool.and_eq_true, decide_eq_true_eq] at found
  obtain ⟨⟨⟨⟨⟨⟨⟨⟨one, two⟩, idle₁⟩, idle₂⟩, first⟩, next⟩, owner⟩, info⟩, live⟩ := found
  obtain ⟨l, chain, -⟩ := (Inv.partition (Inv.of_reachable reached)).free firstPage
  obtain ⟨s₁, reached₁, empty, same, info₁, live₁⟩ :=
    exists_drained reached one idle₁ first (by decide) chain
  have segment : segmentIndex (cxlPageStart firstPage) = 0 := by decide
  have other : ¬ s₁.segmentThreadId 0 = 2 := by
    rw [same.segmentThreadId, owner]
    decide
  have normal : s₁.info 0 = ⟨.normal, 0⟩ := by rw [info₁, info]
  have ready : s₁.registered 2 = true ∧ s₁.call 2 = .idle ∧
      s₁.allocated (cxlPageStart firstPage) = some true :=
    ⟨same.registered ▸ two, same.call ▸ idle₂, live₁ _ live⟩
  obtain ⟨s₂, freed, registered₂, first₂, next₂, free₂, shared⟩ : ∃ s₂,
      step (1 <<< 28) s₁ (.free 2 true (cxlPageStart firstPage)) = some s₂ ∧
        s₂.registered = s₁.registered ∧ s₂.first = s₁.first ∧ s₂.next = s₁.next ∧
        s₂.free = s₁.free ∧ (s₂.info 0).threadFree = cxlPageStart firstPage := by
    simp only [step, if_pos ready, State.cxlFree, segment, if_neg other, normal]
    rw [if_neg (by decide)]
    exact ⟨_, rfl, rfl, rfl, rfl, rfl, by simp⟩
  refine ⟨s₂, reached₁.next freed trivial, ?_, ⟨?_, by decide, ?_⟩, ?_, shared⟩
  · rw [registered₂, same.registered, one]
  · rw [first₂, same.first, first]
  · rw [next₂, same.next, next]
    rfl
  · rw [free₂, empty]

/-- The client finds its page by what it collects from the chain of the segment. -/
theorem cxlPageQueueFindFreeEx_reuses_returned : ∃ s g ns s' page,
    Reachable (step (1 <<< 28)) Careful State.init s ∧ s.free firstPage = 0 ∧
      (s.info 0).threadFree = cxlPageStart firstPage ∧
      s.cxlPageQueueFindFreeEx (1 <<< 28) (1, 0) g ns = some (s', page) ∧
      s'.free page ≠ 0 ∧ KeepsBlocks s s' ∧ page = firstPage := by
  obtain ⟨s, reached, registered, queue, empty, shared⟩ := exists_returned
  have inv : Inv s := .of_reachable reached
  have has : HasBlock s firstPage := by
    obtain ⟨home, place, pages, blocks⟩ := inv
    have some : s.heads 0 (.threadFree 0) ≠ 0 := by
      change (s.info 0).threadFree ≠ 0
      rw [shared]
      decide
    have listed := (blocks.onChain (.threadFree 0) _).2
      (stack_eq_some.1 (blocks.lists.place_head some))
    refine .inr (.inr ⟨(s.info 0).threadFree, listed, ?_⟩)
    rw [shared]
    decide
  obtain ⟨⟨g, ns, ⟨s', page⟩, search⟩, all⟩ :=
    @cxlPageQueueFindFreeEx_reuses (1 <<< 28) 1 0 s [firstPage] inv registered (by decide) queue
      (.inl ⟨firstPage, by simp, has⟩)
  obtain ⟨some, kept, -, ⟨-, before, after, split, -⟩ | ⟨none, -⟩⟩ := all g ns s' page search
  · refine ⟨s, g, ns, s', page, reached, empty, shared, search, some, kept, ?_⟩
    have here : page ∈ [firstPage] := by
      rw [split]
      simp
    exact List.mem_singleton.1 here
  · exact absurd has (none firstPage (by simp))

end CxlShm.Heap
