import CxlShm.Alloc.Pages

/-!
# Who owns a segment and its pages

A segment that a client has taken holds its name in the allocation state and in the header, and
each of its pages is in one queue of that client: in the bin of its block size or among the free
pages.  The segment counts its pages in bins, and goes back when there is none.
-/

namespace CxlShm.Heap

open Linked Counting Function Reachability

/-- What the allocator relies on: at most `MAX_THREAD` clients, sizes that have a bin, and `put`
only by the clients whose partitions lie in the hash table. -/
def Careful (_ : State) (a : Action) (_ : State) : Prop :=
  match a with
  | .threadInit t => t ≤ maxThread
  | .alloc _ kind => kind.bytes ≤ 1024
  | .putEntry t _ _ => t ≤ 64
  | .find .. | .free .. | .store .. => True

/-- Segments, pages and blocks are in order. -/
def Inv (s : State) : Prop := ∃ home place, Pages home s ∧ Blocks home place 0 s

/-- At most one block is handed out, and it was not allocated. -/
def HandsOut (s s' : State) : Prop :=
  s'.allocated = s.allocated ∨
    ∃ b special, s.allocated b = none ∧ s'.allocated = update s.allocated b (some special)

theorem inv_init : Inv State.init := by
  refine ⟨fun _ => none, fun _ => .outside, ⟨?_, ?_, ?_, ?_, ?_, ?_, ?_, ?_, ?_⟩,
    ⟨?_, ?_, ?_, ?_, ?_, ?_, ?_⟩⟩
  · intro q
    exact ⟨[], ⟨rfl, trivial⟩, by simp⟩
  · simp
  · simp [State.init]
  · simp [State.init]
  · simp [State.init]
  · simp
  · simp [State.init]
  · simp [State.init]
  · simp [State.init]
  · intro q
    refine ⟨[], ?_, by simp⟩
    cases q <;> rfl
  · intro b
    refine iff_of_false (fun absurd => absurd rfl) ?_
    rintro ⟨t, i, here, -⟩
    cases here
  · simp
  · intro page
    exact (countAt_eq_zero fun _ _ => id).symm
  · simp [State.init]
  · simp
  · simp [State.init]

namespace State

variable {s s' : State} {q : ℕ × ℕ} {page tail n g t size : ℕ}

theorem allocated_blockTo {kind : Kind} (run : s.blockTo kind page = some s') :
    s'.allocated = update s.allocated (s.free page) (some kind.special) := by
  simp only [blockTo] at run
  split at run
  · cases run
  · obtain rfl := Option.some.inj run
    rfl

theorem allocated_collectBlocks (run : collectBlocks n tail s = some s') :
    s'.allocated = s.allocated := by
  induction n generalizing tail s with
  | zero =>
    simp only [collectBlocks] at run
    split at run
    · obtain rfl := Option.some.inj run
      rfl
    · cases run
  | succ n ih =>
    simp only [collectBlocks] at run
    split at run
    · cases run
    · have same := ih run
      exact same

theorem allocated_cxlPageFreeCollect (run : s.cxlPageFreeCollect page n = some s') :
    s'.allocated = s.allocated := by
  obtain ⟨s₁, collected, rfl⟩ := Option.map_eq_some_iff.1 run
  have merged : (s₁.mergeLocalFree page).allocated = s₁.allocated := by
    rw [mergeLocalFree]
    split <;> rfl
  rw [merged]
  simp only [cxlThreadFreeCollect] at collected
  split at collected
  · obtain rfl := Option.some.inj collected
    rfl
  · have same := allocated_collectBlocks collected
    exact same

/-- The two states agree on everything that the taking of a segment leaves alone. -/
structure Refilled (s s₂ : State) : Prop where
  free : s₂.free = s.free
  localFree : s₂.localFree = s.localFree
  blockSize : s₂.blockSize = s.blockSize
  used : s₂.used = s.used
  blockNext : s₂.blockNext = s.blockNext
  queueBlockSize : s₂.queueBlockSize = s.queueBlockSize
  registered : s₂.registered = s.registered
  call : s₂.call = s.call
  allocated : s₂.allocated = s.allocated

theorem refilled_cxlSegmentAlloc (run : s.cxlSegmentAlloc size t g = some s') : s.Refilled s' := by
  rw [cxlSegmentAlloc] at run
  split at run
  · have same := sameElse_pushPages (q := (t, freePage)) (g := g) (pagesPerSegment - 1) { s with
      sasThreadId := update s.sasThreadId g t
      info := update s.info g ⟨.normal, 0⟩
      segmentThreadId := update s.segmentThreadId g (t % 2 ^ 16)
      segmentUsed := update s.segmentUsed g 0 }
    rw [Option.some.inj run] at same
    exact ⟨same.free, same.localFree, same.blockSize, same.used, same.blockNext, same.queueBlockSize,
      same.registered, same.call, same.allocated⟩
  · cases run

/-- `cxl_page_fresh` cuts the first free page into blocks, after it has taken a segment if there was
none. -/
theorem cxlPageFresh_cases (run : s.cxlPageFresh size q g = some (s', page)) :
    ∃ s₂, s.Refilled s₂ ∧ page = s₂.first (q.1, freePage) ∧ s.queueBlockSize q ≠ 0 ∧
      s' = ((s₂.takeFreePage q.1).1.cxlPageInit (q.2 < 2) page (s.queueBlockSize q)).cxlPageQueuePush
        q page := by
  obtain ⟨⟨s₁, page₁⟩, alloc, init⟩ := Option.bind_eq_some_iff.1 run
  obtain ⟨s₂, same, taken⟩ : ∃ s₂, s.Refilled s₂ ∧ s₂.takeFreePage q.1 = (s₁, page₁) := by
    rw [cxlSegmentPageAlloc] at alloc
    split at alloc
    · obtain ⟨s₂, segment, taken⟩ := Option.map_eq_some_iff.1 alloc
      exact ⟨s₂, refilled_cxlSegmentAlloc segment, taken⟩
    · exact ⟨s, ⟨rfl, rfl, rfl, rfl, rfl, rfl, rfl, rfl, rfl⟩, Option.some.inj alloc⟩
  have state_eq : (s₂.takeFreePage q.1).1 = s₁ := by rw [taken]
  have bs : s₁.queueBlockSize q = s.queueBlockSize q := by
    rw [← same.queueBlockSize, ← state_eq]
    rfl
  simp only [bs] at init
  split at init
  · cases init
  · next some =>
    obtain ⟨rfl, rfl⟩ := Prod.mk.inj (Option.some.inj init)
    exact ⟨s₂, same, (congrArg Prod.snd taken).symm, some, by rw [state_eq]⟩

theorem allocated_cxlPageFresh (run : s.cxlPageFresh size q g = some (s', page)) :
    s'.allocated = s.allocated := by
  obtain ⟨s₂, same, -, -, rfl⟩ := cxlPageFresh_cases run
  exact same.allocated

end State

namespace Inv

variable {s s' : State} {t size : ℕ}

theorem threadInit (h : Inv s) (from_one : 1 ≤ t) (few : t ≤ maxThread)
    (free : s.registered t = false) : Inv (s.threadInit t) := by
  obtain ⟨home, place, pages, blocks⟩ := h
  have homeless : ∀ p i, home p ≠ some (t, i) := by
    intro p i here
    rw [(pages.owned p t i here).2.2.1] at free
    cases free
  have still : ∀ u, s.registered u = true → (s.threadInit t).registered u = true := by
    intro u registered
    by_cases same : u = t
    · simp [State.threadInit, same]
    · simpa [State.threadInit, same] using registered
  refine ⟨home, place, ⟨?_, ?_, pages.full, pages.header, pages.segmentUsed, pages.blockSize, ?_,
    ?_, ?_⟩, blocks.of_same rfl rfl rfl rfl rfl rfl⟩
  · have first : (s.threadInit t).first = s.first := by
      funext q
      by_cases same : q.1 = t
      · obtain ⟨l, dll, mem⟩ := pages.queues q
        have empty : l = [] := by
          rw [List.eq_nil_iff_forall_not_mem]
          intro p hp
          have here := (mem p).1 hp
          rw [← Prod.mk.eta (p := q), same] at here
          exact homeless p q.2 here
        subst empty
        simp [State.threadInit, same, show s.first q = 0 from dll.1]
      · simp [State.threadInit, same]
    exact pages.queues.congr (fun _ _ _ => rfl) (fun _ _ _ => rfl) first
  · intro p u i here
    obtain ⟨isPage, owner, registered, bound⟩ := pages.owned p u i here
    exact ⟨isPage, owner, still u registered, bound⟩
  · intro u i registered
    by_cases same : u = t
    · simp [State.threadInit, same]
    · simp only [State.threadInit, same, update_of_ne same, if_false] at registered ⊢
      exact pages.queueBlockSize u i registered
  · intro u registered
    by_cases same : u = t
    · subst same
      exact ⟨from_one, few⟩
    · exact pages.registered u (by simpa [State.threadInit, same] using registered)
  · intro u kind p calling
    obtain ⟨registered, rest⟩ := pages.call u kind p calling
    exact ⟨still u registered, rest⟩

theorem allocStep {kind : Kind} (h : Inv s) (registered : s.registered t = true)
    (small : kind.bytes ≤ 1024) (run : s.allocStep t kind = some s') :
    Inv s' ∧ HandsOut s s' := by
  obtain ⟨home, place, pages, blocks⟩ := h
  have bin := cxlPageQueue_lt small
  have inside : ¬ freePage < (State.queueOf t kind).2 := Nat.lt_asymm bin
  simp only [State.allocStep, if_neg inside] at run
  split at run
  · next found =>
    have here : home (s.first (State.queueOf t kind)) = some (State.queueOf t kind) :=
      Lists.home_first pages.queues found.1
    obtain ⟨fresh, same, taken⟩ := blocks.take here (serves_queueOf small) run
    exact ⟨⟨home, _, pages.of_samePages same, taken⟩,
      .inr ⟨_, _, fresh, State.allocated_blockTo run⟩⟩
  · obtain rfl := Option.some.inj run
    refine ⟨⟨home, place, pages.setCall ?_, blocks.of_same rfl rfl rfl rfl rfl rfl⟩, .inl rfl⟩
    rintro kind' page ⟨⟩
    refine ⟨registered, small, ?_⟩
    by_cases none : s.first (State.queueOf t kind) = 0
    · exact .inl none
    · exact .inr (Lists.home_first pages.queues none)

theorem findStep {g n : ℕ} (h : Inv s) (run : s.findStep size t g n = some s') :
    Inv s' ∧ HandsOut s s' := by
  obtain ⟨home, place, pages, blocks⟩ := h
  rw [State.findStep] at run
  cases calling : s.call t with
  | idle => simp [calling] at run
  | find kind page =>
    obtain ⟨registered, small, cursor⟩ := pages.call t kind page calling
    simp only [calling] at run
    by_cases last : page = 0
    · rw [if_pos last] at run
      obtain ⟨⟨s₁, page₁⟩, fresh, taken⟩ := Option.bind_eq_some_iff.1 run
      obtain ⟨home₁, place₁, pages₁, blocks₁, here, -⟩ :=
        pages.cxlPageFresh blocks registered (cxlPageQueue_lt small) fresh
      have idle : Pages home₁ (s₁.setCall t .idle) := pages₁.setCall (by simp)
      have blocks₂ : Blocks home₁ place₁ 0 (s₁.setCall t .idle) :=
        blocks₁.of_same rfl rfl rfl rfl rfl rfl
      obtain ⟨unused, same, blocks₃⟩ := blocks₂.take here (serves_queueOf small) taken
      have fixed := State.allocated_cxlPageFresh fresh
      have allocated : (s₁.setCall t .idle).allocated = s.allocated := fixed
      have given := State.allocated_blockTo taken
      rw [allocated] at given unused
      exact ⟨⟨home₁, _, idle.of_samePages same, blocks₃⟩, .inr ⟨_, _, unused, given⟩⟩
    · rw [if_neg last] at run
      obtain ⟨s₁, collected, rest⟩ := Option.bind_eq_some_iff.1 run
      obtain ⟨same, place₁, blocks₁⟩ := blocks.cxlPageFreeCollect collected
      have pages₁ := pages.of_samePages same
      have here := cursor.resolve_left last
      have fixed := State.allocated_cxlPageFreeCollect collected
      split at rest
      · have idle : Pages home (s₁.setCall t .idle) := pages₁.setCall (by simp)
        have blocks₂ : Blocks home place₁ 0 (s₁.setCall t .idle) :=
          blocks₁.of_same rfl rfl rfl rfl rfl rfl
        obtain ⟨unused, same₂, blocks₃⟩ := blocks₂.take here (serves_queueOf small) rest
        have allocated : (s₁.setCall t .idle).allocated = s.allocated := fixed
        have given := State.allocated_blockTo rest
        rw [allocated] at given unused
        exact ⟨⟨home, _, idle.of_samePages same₂, blocks₃⟩, .inr ⟨_, _, unused, given⟩⟩
      · obtain rfl := Option.some.inj rest
        refine ⟨⟨home, place₁, pages₁.setCall ?_, blocks₁.of_same rfl rfl rfl rfl rfl rfl⟩,
          .inl fixed⟩
        rintro kind' page' ⟨⟩
        refine ⟨by rw [same.registered]; exact registered, small, ?_⟩
        by_cases none : s.next page = 0
        · exact .inl none
        · exact .inr (Lists.home_next pages.queues here none)

/-- A live block lies in a page of the owner of its segment, in the bin that its flag and the
page's block size lead to. -/
theorem page_of_allocated {b : ℕ} {special : Bool} {home : Homes} {place : ℕ → Place}
    (pages : Pages home s) (blocks : Blocks home place 0 s) (live : s.allocated b = some special) :
    ∃ u i, home (cxlPtrPage b) = some (u, i) ∧ i < cxlBinSize ∧ InPage (cxlPtrPage b) i b ∧
      Serves special i ∧ s.blockSize (cxlPtrPage b) = initBlockSize i ∧
      s.segmentThreadId (segmentIndex b) = u ∧ segmentIndex (cxlPtrPage b) = segmentIndex b := by
  have old := (blocks.allocated b special).1 live
  obtain ⟨u, i, here, bin, inPage⟩ := (blocks.block b).1 (by simp [old])
  obtain ⟨isPage, owner, registered, -⟩ := pages.owned _ u i here
  obtain ⟨x, inside, there⟩ := inPage.inside le_rfl (by have := initBlockSize_pos bin; omega)
  have index : segmentIndex (cxlPtrPage b) = segmentIndex b := by
    rw [← inPage.isPage.segmentIndex_add inside, ← there]
  have from_one := (pages.registered u registered).1
  have header := pages.header (segmentIndex (cxlPtrPage b)) (by rw [owner]; omega)
  rw [index] at header owner
  exact ⟨u, i, here, bin, inPage, blocks.bin b special u i old here, pages.blockSize _ u i here bin,
    by rw [header, owner], index⟩

/-- `cxl_free`; if it gives a segment back, the other free pages stay as they are. -/
theorem cxlFree {b : ℕ} {special : Bool} (h : Inv s) (idle : s.call t = .idle)
    (live : s.allocated b = some special) (run : s.cxlFree t special b = some s') :
    Inv s' ∧ (s'.sasThreadId = s.sasThreadId ∨
      s'.sasThreadId = update s.sasThreadId (segmentIndex b) 0 ∧
        ∀ l, Dll s.next s.prev 0 (s.first (t, freePage)) l →
          Dll s'.next s'.prev 0 (s'.first (t, freePage))
            (l.filter fun p => segmentIndex p ≠ segmentIndex b)) := by
  obtain ⟨home, place, pages, blocks⟩ := h
  obtain ⟨u, i, here, bin, inPage, serves, size_eq, owner, index⟩ :=
    page_of_allocated pages blocks live
  have old := (blocks.allocated b special).1 live
  have written := blocks.write old here
    (m := memset s.blockNext b (State.clearedBytes special (s.blockSize (cxlPtrPage b))))
    (by
      intro a changed
      have bound := serves.2
      rw [← size_eq] at bound
      rw [memset] at changed
      split at changed
      · next range => exact ⟨range.1, by rw [← size_eq]; omega⟩
      · exact absurd rfl changed)
  simp only [State.cxlFree] at run
  split at run
  · next own =>
    have u_eq : u = t := by rw [← owner, own]
    subst u_eq
    have freed := written.freeLocal old
    have pages' : Pages home { s with
      allocated := update s.allocated b none
      blockNext := update (memset s.blockNext b (State.clearedBytes special
        (s.blockSize (cxlPtrPage b)))) b (s.localFree (cxlPtrPage b))
      localFree := update s.localFree (cxlPtrPage b) b
      used := update s.used (cxlPtrPage b) (dec32 (s.used (cxlPtrPage b))) } :=
      pages.of_samePages ⟨rfl, rfl, rfl, rfl, rfl, rfl, rfl, rfl, rfl, rfl⟩
    split at run
    · next unused =>
      have queue : cxlPageQueue special (s.blockSize (cxlPtrPage b)) = i := by
        rw [size_eq, serves.1]
      rw [queue] at run
      obtain ⟨home₁, place₁, pages₁, blocks₁, rest⟩ :=
        pages'.cxlPageFree freed here bin unused idle run
      rw [index] at rest
      exact ⟨⟨home₁, place₁, pages₁, blocks₁⟩, rest⟩
    · obtain rfl := Option.some.inj run
      exact ⟨⟨home, _, pages', freed⟩, .inl rfl⟩
  · have normal : (s.info (segmentIndex b)).state ≠ .potentialLeaking := by
      rw [blocks.normal]
      decide
    rw [if_neg normal] at run
    obtain rfl := Option.some.inj run
    exact ⟨⟨home, _, pages.of_samePages ⟨rfl, rfl, rfl, rfl, rfl, rfl, rfl, rfl, rfl, rfl⟩,
      written.freeRemote old rfl⟩, .inl rfl⟩

theorem store {b a v : ℕ} (h : Inv s) (live : (s.allocated b).isSome) (from_b : b ≤ a)
    (to_b : a < b + s.blockSize (cxlPtrPage b)) :
    Inv { s with blockNext := update s.blockNext a v } := by
  obtain ⟨home, place, pages, blocks⟩ := h
  obtain ⟨special, live⟩ := Option.isSome_iff_exists.1 live
  obtain ⟨u, i, here, -, -, -, size_eq, -⟩ := page_of_allocated pages blocks live
  rw [size_eq] at to_b
  refine ⟨home, place, pages.of_samePages ⟨rfl, rfl, rfl, rfl, rfl, rfl, rfl, rfl, rfl, rfl⟩,
    blocks.write ((blocks.allocated b special).1 live) here ?_⟩
  intro x changed
  by_cases same : x = a
  · subst same
    exact ⟨from_b, to_b⟩
  · exact absurd (update_of_ne same _ _) changed

theorem step {a : Action} (h : Inv s) (run : Heap.step size s a = some s') (careful : Careful s a s') :
    Inv s' := by
  cases a with
  | threadInit t =>
    simp only [Heap.step] at run
    split at run
    · next free =>
      obtain rfl := Option.some.inj run
      exact h.threadInit free.1 careful free.2
    · cases run
  | alloc t kind =>
    simp only [Heap.step] at run
    split at run
    · next ready => exact (h.allocStep ready.1 careful run).1
    · cases run
  | find t g n => exact (h.findStep run).1
  | free t special b =>
    simp only [Heap.step] at run
    split at run
    · next ready => exact (h.cxlFree ready.2.1 ready.2.2 run).1
    · cases run
  | store b a v =>
    simp only [Heap.step] at run
    split at run
    · next ready =>
      obtain rfl := Option.some.inj run
      exact h.store ready.1 ready.2.1 ready.2.2
    · cases run
  | putEntry t k v =>
    simp only [Heap.step] at run
    split at run
    · next ready =>
      have in_table : hashTableStart + (t - 1) * hashTableSize + 8 * k < segmentsAreaStart := by
        have bound : t ≤ 64 := careful
        have word := ready.2.2
        simp only [hashTableStart, hashTableSize, segmentsAreaStart]
        omega
      obtain rfl := Option.some.inj run
      rw [if_pos in_table]
      exact h
    · cases run

theorem of_reachable (h : Reachable (Heap.step size) Careful State.init s) : Inv s :=
  Reachable.invariant inv_init (fun _ _ _ inv run careful => inv.step run careful) h

end Inv

/-! ## What a client sees of it -/

/-- The pages of a queue, from `first` on by `next`. -/
def Queued (s : State) (q : ℕ × ℕ) (l : List ℕ) : Prop := Chain s.next 0 (s.first q) l

/-- The page is found in the queue. -/
def InQueue (s : State) (q : ℕ × ℕ) (page : ℕ) : Prop := ∃ l, Queued s q l ∧ page ∈ l

/-- Segments and pages have the owners that the allocation states name. -/
structure Ownership (s : State) : Prop where
  queued : ∀ q, ∃ l, Queued s q l
  header : ∀ g, s.sasThreadId g ≠ 0 → s.segmentThreadId g = s.sasThreadId g
  page : ∀ g k, s.sasThreadId g ≠ 0 → 1 ≤ k → k < pagesPerSegment →
    ∃ i, (∀ q, InQueue s q (metaPage (segmentAt g) k) ↔ q = (s.sasThreadId g, i)) ∧
      (i = freePage ∨ i < cxlBinSize ∧
        ∃ special, i = cxlPageQueue special (s.blockSize (metaPage (segmentAt g) k)))
  used : ∀ g, s.sasThreadId g ≠ 0 → s.segmentUsed g =
    {k | 1 ≤ k ∧ k < pagesPerSegment ∧
      ∃ t i, i < cxlBinSize ∧ InQueue s (t, i) (metaPage (segmentAt g) k)}.ncard
  unowned : ∀ g k q, s.sasThreadId g = 0 → k < pagesPerSegment →
    ¬ InQueue s q (metaPage (segmentAt g) k)
  live : ∀ b special, s.allocated b = some special → InQueue s
    (s.sasThreadId (segmentIndex b), cxlPageQueue special (s.blockSize (cxlPtrPage b)))
    (cxlPtrPage b)

theorem Pages.inQueue {home : Homes} {s : State} (h : Pages home s) (q : ℕ × ℕ) (page : ℕ) :
    InQueue s q page ↔ home page = some q := by
  constructor
  · rintro ⟨l, chain, mem⟩
    exact (Lists.mem_iff h.queues chain).1 mem
  · intro here
    obtain ⟨l, dll, mem⟩ := h.queues q
    exact ⟨l, dll.1, (mem page).2 here⟩

/-- Each bin is the one that some kind of free leads to. -/
theorem exists_special {i : ℕ} (bin : i < cxlBinSize) :
    ∃ special, i = cxlPageQueue special (initBlockSize i) := by
  by_cases queue : i < 2
  · refine ⟨true, ?_⟩
    have cases : i = 0 ∨ i = 1 := by omega
    rcases cases with rfl | rfl <;> decide
  · refine ⟨false, ?_⟩
    have size : initBlockSize i = 16 * (i - 1) := by
      rw [initBlockSize, if_neg (by omega), if_neg (by omega), if_pos bin]
    rw [cxlBinSize] at bin
    rw [size, cxlPageQueue_obj (by omega) (by omega)]
    omega

theorem Inv.ownership {s : State} (h : Inv s) : Ownership s := by
  obtain ⟨home, place, pages, blocks⟩ := h
  refine ⟨?_, pages.header, ?_, ?_, ?_, ?_⟩
  · intro q
    obtain ⟨l, dll, -⟩ := pages.queues q
    exact ⟨l, dll.1⟩
  · intro g k owned from_one hk
    obtain ⟨i, here⟩ := pages.full g k owned from_one hk
    refine ⟨i, fun q => ?_, ?_⟩
    · rw [pages.inQueue, here, Option.some.injEq, eq_comm]
    · by_cases bin : i < cxlBinSize
      · right
        obtain ⟨special, same⟩ := exists_special bin
        exact ⟨bin, special, by rw [pages.blockSize _ _ i here bin]; exact same⟩
      · left
        have bound := (pages.owned _ _ i here).2.2.2
        simp only [freePage] at bound ⊢
        omega
  · intro g owned
    have counted : {p | segmentIndex p = g ∧ InBin (home p)} = metaPage (segmentAt g) ''
        {k | 1 ≤ k ∧ k < pagesPerSegment ∧
          ∃ t i, i < cxlBinSize ∧ InQueue s (t, i) (metaPage (segmentAt g) k)} := by
      ext p
      constructor
      · rintro ⟨rfl, t, i, here, bin⟩
        obtain ⟨k, from_one, hk, record⟩ := (pages.owned p t i here).1.eq_metaPage
        refine ⟨k, ⟨from_one, hk, t, i, bin, ?_⟩, record.symm⟩
        rw [pages.inQueue, ← record]
        exact here
      · rintro ⟨k, ⟨from_one, hk, t, i, bin, queued⟩, rfl⟩
        rw [pages.inQueue] at queued
        exact ⟨segmentIndex_metaPage hk, t, i, queued, bin⟩
    rw [pages.segmentUsed g owned, countAt_eq, counted]
    apply Set.InjOn.ncard_image
    rintro k ⟨-, hk, -⟩ k' ⟨-, hk', -⟩ same
    exact (metaPage_inj hk hk' same).2
  · intro g k q free hk queued
    rw [pages.inQueue, pages.unowned (by rw [segmentIndex_metaPage hk]; exact free)] at queued
    cases queued
  · intro b special live
    obtain ⟨u, i, here, bin, -, serves, size_eq, -, index⟩ :=
      Inv.page_of_allocated pages blocks live
    have owner := (pages.owned _ u i here).2.1
    rw [pages.inQueue, here, size_eq, serves.1, ← index, owner]

/-- In every run of any number of clients up to `MAX_THREAD`, in any order of the accesses to shared
words: each page of a taken segment is in one queue, of the segment's owner; the counters agree with
the queues; and a free that gives a segment back takes its pages out of the free pages and leaves
the others as they are. -/
theorem ownership_of_reachable {size : ℕ} {s : State}
    (reached : Reachable (step size) Careful State.init s) :
    Ownership s ∧ ∀ t special b s', step size s (.free t special b) = some s' →
      ∀ g, s.sasThreadId g = t → s'.sasThreadId g = 0 →
        ∃ l, Queued s (t, freePage) l ∧
          Queued s' (t, freePage) (l.filter fun p => segmentIndex p ≠ g) := by
  have inv := Inv.of_reachable reached
  refine ⟨inv.ownership, ?_⟩
  intro t special b s' run g owner released
  simp only [step] at run
  split at run
  swap
  · cases run
  next ready =>
  obtain ⟨-, changed⟩ := inv.cxlFree ready.2.1 ready.2.2 run
  obtain ⟨home, place, pages, blocks⟩ := inv
  have from_one := (pages.registered t ready.1).1
  rcases changed with same | ⟨changed, rest⟩
  · rw [same, owner] at released
    omega
  · by_cases here : g = segmentIndex b
    · subst here
      obtain ⟨l, dll, -⟩ := pages.queues (t, freePage)
      exact ⟨l, dll.1, (rest l dll).1⟩
    · rw [changed, update_of_ne here, owner] at released
      omega

/-! ## The first allocation in an empty area -/

theorem first_pushPages {q : ℕ × ℕ} {g n : ℕ} (some : n ≠ 0) (s : State) :
    (State.pushPages q g n s).first q = metaPage (segmentAt g) 1 := by
  induction n generalizing s with
  | zero => exact absurd rfl some
  | succ n ih =>
    cases n with
    | zero => exact update_self _ _ _
    | succ n => exact ih (Nat.succ_ne_zero n) _

/-- A segment that nobody has taken can be taken. -/
theorem exists_segmentAlloc {s : State} {t g size : ℕ}
    (room : segmentsAreaStart + (g + 1) * segmentSize ≤ size) (free : s.sasThreadId g = 0) :
    ∃ s', s.cxlSegmentAlloc size t g = some s' ∧
      s'.first (t, freePage) = metaPage (segmentAt g) 1 ∧
      s'.sasThreadId = update s.sasThreadId g t ∧
      s'.segmentThreadId = update s.segmentThreadId g (t % 2 ^ 16) ∧
      s'.allocated = s.allocated ∧ s'.SameCalls s := by
  obtain ⟨taken, taken_eq⟩ : ∃ taken, taken = { s with
    sasThreadId := update s.sasThreadId g t
    info := update s.info g ⟨.normal, 0⟩
    segmentThreadId := update s.segmentThreadId g (t % 2 ^ 16)
    segmentUsed := update s.segmentUsed g 0 } := ⟨_, rfl⟩
  obtain ⟨full, full_eq⟩ : ∃ full, full =
    State.pushPages (t, freePage) g (pagesPerSegment - 1) taken := ⟨_, rfl⟩
  have same := State.sameElse_pushPages (q := (t, freePage)) (g := g) (pagesPerSegment - 1) taken
  rw [← full_eq] at same
  refine ⟨full, ?_, ?_, ?_, ?_, ?_, ⟨?_, ?_, ?_⟩⟩
  · rw [State.cxlSegmentAlloc, if_pos ⟨room, free⟩, full_eq, taken_eq]
  · rw [full_eq]
    exact first_pushPages (by decide) _
  · rw [same.sasThreadId, taken_eq]
  · rw [same.segmentThreadId, taken_eq]
  · rw [same.allocated, taken_eq]
  · rw [same.call, taken_eq]
  · rw [same.registered, taken_eq]
  · rw [same.queueBlockSize, taken_eq]

/-- A client without free pages gets the first page of the segment. -/
theorem exists_pageFresh {s : State} {q : ℕ × ℕ} {g size : ℕ} (none : s.first (q.1, freePage) = 0)
    (room : segmentsAreaStart + (g + 1) * segmentSize ≤ size) (free : s.sasThreadId g = 0)
    (some : s.queueBlockSize q ≠ 0) :
    ∃ s' page, page = metaPage (segmentAt g) 1 ∧ s.cxlPageFresh size q g = Option.some (s', page) ∧
      s'.first q = page ∧ s'.free page = cxlPageStart page ∧ s'.localFree page = 0 ∧
      s'.blockSize page = s.queueBlockSize q % 2 ^ 32 ∧
      s'.sasThreadId = update s.sasThreadId g q.1 ∧
      s'.segmentThreadId = update s.segmentThreadId g (q.1 % 2 ^ 16) ∧
      s'.allocated = s.allocated ∧ s'.SameCalls s := by
  obtain ⟨full, alloc, first, sas, header, allocated, calls⟩ :=
    exists_segmentAlloc (t := q.1) room free
  obtain ⟨page, page_eq⟩ : ∃ page, page = metaPage (segmentAt g) 1 := ⟨_, rfl⟩
  rw [← page_eq] at first
  have taken : full.takeFreePage q.1 =
      ((full.cxlPageQueueRemove (q.1, freePage) page).incSegmentUsed (segmentIndex page), page) := by
    rw [State.takeFreePage, first]
  have bs : ((full.cxlPageQueueRemove (q.1, freePage) page).incSegmentUsed
      (segmentIndex page)).queueBlockSize q = s.queueBlockSize q := by
    rw [← calls.queueBlockSize]
    rfl
  refine ⟨(((full.cxlPageQueueRemove (q.1, freePage) page).incSegmentUsed
    (segmentIndex page)).cxlPageInit (q.2 < 2) page (s.queueBlockSize q)).cxlPageQueuePush q page,
    page, page_eq, ?_, ?_, ?_, ?_, ?_, ?_⟩
  · rw [State.cxlPageFresh, State.cxlSegmentPageAlloc, if_pos none, alloc, Option.map_some, taken,
      Option.bind_some]
    simp only [bs, if_neg some]
  · exact update_self _ _ _
  · exact update_self _ _ _
  · exact update_self _ _ _
  · exact update_self _ _ _
  · exact ⟨sas, header, allocated, ⟨calls.call, calls.registered, calls.queueBlockSize⟩⟩

/-- The page of the first allocation. -/
def firstPage : ℕ := metaPage (segmentAt 0) 1

theorem isPage_firstPage : IsPage firstPage := ⟨0, 1, le_rfl, by decide, rfl⟩

/-- In an empty area a client gets the first block of the first page of the first segment. -/
theorem exists_first_alloc (t size : ℕ) (kind : Kind) (from_one : 1 ≤ t)
    (room : segmentsAreaStart + segmentSize ≤ size) (small : kind.bytes ≤ 1024) :
    ∃ s₁ s₂ s₃, step size State.init (.threadInit t) = some s₁ ∧
      step size s₁ (.alloc t kind) = some s₂ ∧ step size s₂ (.find t 0 0) = some s₃ ∧
      s₃.sasThreadId 0 = t ∧ s₃.segmentThreadId 0 = t % 2 ^ 16 ∧
      s₃.first (State.queueOf t kind) = firstPage ∧ s₃.localFree firstPage = 0 ∧
      s₃.blockSize firstPage = initBlockSize (cxlPageQueue kind.special kind.size) ∧
      s₃.allocated (cxlPageStart firstPage) = some kind.special ∧ s₃.registered t = true ∧
      s₃.call t = .idle ∧ ∀ u, u ≠ t → s₃.registered u = false := by
  have bin := cxlPageQueue_lt small
  have pos := initBlockSize_pos bin
  have le := initBlockSize_le bin
  have bs : ((State.init.threadInit t).setCall t (.find kind 0)).queueBlockSize
      (State.queueOf t kind) = initBlockSize (cxlPageQueue kind.special kind.size) := by
    simp [State.setCall, State.threadInit, State.queueOf]
  have empty : ∀ q, (State.init.threadInit t).first q = 0 := by
    intro q
    simp [State.init, State.threadInit]
  obtain ⟨s, page, page_eq, fresh, first, free, localFree, blockSize, sas, header, allocated, calls⟩ :=
    exists_pageFresh (q := State.queueOf t kind) (g := 0)
      (s := (State.init.threadInit t).setCall t (.find kind 0)) (empty _) (by simpa using room) rfl
      (by rw [bs]; exact Nat.ne_of_gt pos)
  have start : s.free page ≠ 0 := by
    rw [free, page_eq]
    exact Nat.ne_of_gt isPage_firstPage.cxlPageStart_pos
  obtain ⟨s', given, given_eq⟩ : ∃ s', (s.setCall t .idle).blockTo kind page = some s' ∧
      s' = { s.setCall t .idle with
        used := s'.used
        free := s'.free
        allocated := update s.allocated (s.free page) (some kind.special) } := by
    refine ⟨_, if_neg start, rfl⟩
  refine ⟨State.init.threadInit t, (State.init.threadInit t).setCall t (.find kind 0), s', ?_, ?_, ?_,
    ?_⟩
  · simp [step, from_one, State.init]
  · have inside : ¬ freePage < (State.queueOf t kind).2 := Nat.lt_asymm bin
    simp [step, State.allocStep, inside, State.threadInit, State.init]
  · have calling : ((State.init.threadInit t).setCall t (.find kind 0)).call t = .find kind 0 :=
      update_self _ _ _
    simp only [step, State.findStep, calling, if_true, fresh, Option.bind_some]
    exact given
  · rw [given_eq]
    have firstPage_eq : firstPage = page := page_eq.symm
    rw [firstPage_eq]
    refine ⟨?_, ?_, first, localFree, ?_, ?_, ?_, update_self _ _ _, fun u other => ?_⟩
    · show s.sasThreadId 0 = t
      rw [sas]
      exact update_self _ _ _
    · show s.segmentThreadId 0 = t % 2 ^ 16
      rw [header]
      exact update_self _ _ _
    · show s.blockSize page = _
      rw [blockSize, bs, Nat.mod_eq_of_lt (by omega)]
    · show update s.allocated (s.free page) _ (cxlPageStart page) = _
      rw [free, update_self]
    · show s.registered t = true
      rw [calls.registered]
      exact update_self _ _ _
    · show s.registered u = false
      rw [calls.registered]
      exact update_of_ne other _ _

/-- Client 1 after its first allocation. -/
theorem ownership_of_first_alloc : ∃ s, Reachable (step (1 <<< 28)) Careful State.init s ∧
    s.sasThreadId 0 = 1 ∧ Ownership s := by
  obtain ⟨s₁, s₂, s₃, init, alloc, find, sas, -⟩ := exists_first_alloc 1 (1 <<< 28) .rootRef
    le_rfl (by decide) (by decide)
  have reached : Reachable (step (1 <<< 28)) Careful State.init s₃ :=
    ((Reachable.start.next init (show 1 ≤ maxThread by decide)).next alloc
      (show Kind.rootRef.bytes ≤ 1024 by decide)).next find trivial
  exact ⟨s₃, reached, sas, (ownership_of_reachable reached).1⟩

/-- The header of a segment has 16 bits for a thread id: a segment of client 65536 says 0. -/
theorem header_of_large_id : ∃ s, Reachable (step (1 <<< 28)) (fun _ _ _ => True) State.init s ∧
    ¬ Ownership s := by
  obtain ⟨s₁, s₂, s₃, init, alloc, find, sas, header, -⟩ := exists_first_alloc 65536
    (1 <<< 28) .rootRef (by decide) (by decide) (by decide)
  refine ⟨s₃, ((Reachable.start.next init trivial).next alloc trivial).next find trivial, ?_⟩
  intro ownership
  have same := ownership.header 0 (by rw [sas]; decide)
  rw [sas, header] at same
  exact absurd same (by decide)

end CxlShm.Heap
