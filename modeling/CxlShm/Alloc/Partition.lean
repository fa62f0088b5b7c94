import CxlShm.Alloc.Ownership

/-!
# Every block in one place

What the invariant says to a reader of the memory: each block of a page in a bin is found on exactly
one of the three chains it can be on, or it is allocated; `used` is the number of those that the page
has given away; and a block is handed out only when it is not allocated.
-/

namespace CxlShm.Heap

open Linked Counting Function Reachability

/-- Where a block can be found. -/
inductive Spot
  | free
  | localFree
  | threadFree
  | allocated
  deriving DecidableEq

/-- The block is on the chain. -/
def OnChain (s : State) (head b : ℕ) : Prop := ∃ l, Chain s.blockNext 0 head l ∧ b ∈ l

/-- The block `b` of `page` is found at the spot. -/
def FoundAt (s : State) (page b : ℕ) : Spot → Prop
  | .free => OnChain s (s.free page) b
  | .localFree => OnChain s (s.localFree page) b
  | .threadFree => OnChain s (s.info (segmentIndex page)).threadFree b
  | .allocated => (s.allocated b).isSome

/-- The blocks that `page` is cut into. -/
def pageBlocks (s : State) (page : ℕ) : Set ℕ :=
  {b | ∃ j, j < pageSize / s.blockSize page ∧ b = cxlPageStart page + s.blockSize page * j}

/-- The pages that are in bins. -/
def InUse (s : State) (page : ℕ) : Prop := ∃ t i, i < cxlBinSize ∧ InQueue s (t, i) page

/-- The blocks of the pages in bins. -/
structure Partition (s : State) : Prop where
  free : ∀ page, ∃ l, Chain s.blockNext 0 (s.free page) l ∧ l.Nodup
  localFree : ∀ page, ∃ l, Chain s.blockNext 0 (s.localFree page) l ∧ l.Nodup
  threadFree : ∀ g, ∃ l, Chain s.blockNext 0 (s.info g).threadFree l ∧ l.Nodup
  place : ∀ page b, InUse s page → b ∈ pageBlocks s page → ∃! spot, FoundAt s page b spot
  used : ∀ page, InUse s page → s.used page =
    {b ∈ pageBlocks s page | FoundAt s page b .threadFree}.ncard +
      {b ∈ pageBlocks s page | FoundAt s page b .allocated}.ncard

section Read

variable {s : State} {home : Homes} {place : ℕ → Place} {page i b t : ℕ}

theorem Blocks.onChain (h : Blocks home place 0 s) (q : Stack) (b : ℕ) :
    OnChain s (s.heads 0 q) b ↔ place b = .listed q := by
  obtain ⟨l, chain, mem⟩ := h.lists q
  constructor
  · rintro ⟨m, chain', mem'⟩
    rw [chain'.unique chain, mem, stack_eq_some] at mem'
    exact mem'
  · intro listed
    exact ⟨l, chain, (mem b).2 (stack_eq_some.2 listed)⟩

/-- No chain is detached between two steps. -/
theorem Blocks.not_detached (h : Blocks home place 0 s) : place b ≠ .listed .detached := by
  intro listed
  have none := (h.lists.head_eq_null (q := Stack.detached)).1 rfl
  exact none b (stack_eq_some.2 listed)

/-- The place that goes with a spot. -/
def Spot.AtPlace (page : ℕ) : Spot → Place → Prop
  | .free, p => p = .listed (.free page)
  | .localFree, p => p = .listed (.localFree page)
  | .threadFree, p => p = .listed (.threadFree (segmentIndex page))
  | .allocated, p => ∃ special, p = .allocated special

theorem Blocks.foundAt (h : Blocks home place 0 s) (spot : Spot) :
    FoundAt s page b spot ↔ spot.AtPlace page (place b) := by
  cases spot with
  | free => exact h.onChain (.free page) b
  | localFree => exact h.onChain (.localFree page) b
  | threadFree => exact h.onChain (.threadFree (segmentIndex page)) b
  | allocated =>
    simp only [FoundAt, Option.isSome_iff_exists, h.allocated]
    exact Iff.rfl

theorem Spot.AtPlace.unique {spot spot' : Spot} {p : Place} (h : spot.AtPlace page p)
    (h' : spot'.AtPlace page p) : spot = spot' := by
  cases spot <;> cases spot' <;> simp_all [Spot.AtPlace]

/-- The blocks of a page in a bin. -/
theorem Pages.mem_pageBlocks (h : Pages home s) (here : home page = some (t, i))
    (bin : i < cxlBinSize) : b ∈ pageBlocks s page ↔ InPage page i b := by
  rw [pageBlocks, h.blockSize page t i here bin]
  exact ⟨fun at_index => ⟨(h.owned page t i here).1, at_index⟩, fun inPage => inPage.at_index⟩

/-- The blocks of a page in a bin are the ones that have a place and lead to its record. -/
theorem mem_pageBlocks_iff (pages : Pages home s) (h : Blocks home place 0 s)
    (here : home page = some (t, i)) (bin : i < cxlBinSize) :
    b ∈ pageBlocks s page ↔ cxlPtrPage b = page ∧ place b ≠ .outside := by
  rw [pages.mem_pageBlocks here bin, h.block b]
  constructor
  · intro inPage
    have pos := initBlockSize_pos bin
    have record := inPage.cxlPtrPage_eq le_rfl (by omega)
    exact ⟨record, t, i, by rw [record]; exact here, bin, by rw [record]; exact inPage⟩
  · rintro ⟨rfl, u, k, here', -, inPage⟩
    rw [here] at here'
    obtain ⟨-, rfl⟩ := Prod.mk.inj (Option.some.inj here')
    exact inPage

/-- The counted blocks of a page are those on `thread_free` and the allocated ones. -/
theorem counted_iff (h : Blocks home place 0 s) (inside : cxlPtrPage b = page) :
    (place b).Counted ↔ Spot.AtPlace page .threadFree (place b) ∨
      Spot.AtPlace page .allocated (place b) := by
  have fits := h.fits b
  cases at_b : place b with
  | outside => simp [Place.Counted, Spot.AtPlace]
  | allocated special => simp [Place.Counted, Spot.AtPlace]
  | listed q =>
    have fits := fits q at_b
    cases q with
    | free page' => simp [Place.Counted, Spot.AtPlace]
    | localFree page' => simp [Place.Counted, Spot.AtPlace]
    | detached => exact absurd at_b h.not_detached
    | threadFree g =>
      obtain ⟨u, k, -, bin, inPage⟩ := (h.block b).1 (by simp [at_b])
      have pos := initBlockSize_pos bin
      obtain ⟨x, small, there⟩ := inPage.inside le_rfl (by omega)
      have index : segmentIndex page = g := by
        rw [← inside, ← inPage.isPage.segmentIndex_add small, ← there]
        exact fits
      simp [Place.Counted, Spot.AtPlace, index]

/-- A block that is on a list is not allocated. -/
theorem Blocks.allocated_of_listed (h : Blocks home place 0 s) {q : Stack} (listed : place b = .listed q) :
    s.allocated b = none := by
  rw [Option.eq_none_iff_forall_ne_some]
  intro special live
  rw [h.allocated, listed] at live
  cases live

/-- The page has a block on its own two lists, or on the chain of its segment. -/
def HasBlock (s : State) (page : ℕ) : Prop :=
  s.free page ≠ 0 ∨ s.localFree page ≠ 0 ∨
    ∃ b, OnChain s (s.info (segmentIndex page)).threadFree b ∧ cxlPtrPage b = page

/-- The blocks on the lists of a page in a bin are the ones that are not allocated. -/
theorem Blocks.hasBlock_iff (pages : Pages home s) (h : Blocks home place 0 s)
    (here : home page = some (t, i)) (bin : i < cxlBinSize) :
    HasBlock s page ↔ ∃ b ∈ pageBlocks s page, s.allocated b = none := by
  have left (q : Stack) (b : ℕ) (listed : place b = .listed q) (record : cxlPtrPage b = page) :
      ∃ b ∈ pageBlocks s page, s.allocated b = none :=
    ⟨b, (mem_pageBlocks_iff pages h here bin).2 ⟨record, by simp [listed]⟩, h.allocated_of_listed listed⟩
  have head (q : Stack) (record : ∀ b, q.Fits b → cxlPtrPage b = page) (some : s.heads 0 q ≠ 0) :
      ∃ b ∈ pageBlocks s page, s.allocated b = none := by
    have listed := stack_eq_some.1 (h.lists.place_head some)
    exact left q _ listed (record _ (h.fits _ q listed))
  constructor
  · rintro (some | some | ⟨b, chained, record⟩)
    · exact head (.free page) (fun _ fits => fits) some
    · exact head (.localFree page) (fun _ fits => fits) some
    · exact left _ b ((h.onChain (.threadFree _) b).1 chained) record
  · rintro ⟨b, inside, free⟩
    obtain ⟨record, placed⟩ := (mem_pageBlocks_iff pages h here bin).1 inside
    have some (q : Stack) (listed : place b = .listed q) : s.heads 0 q ≠ 0 := fun none =>
      h.lists.head_eq_null.1 none b (stack_eq_some.2 listed)
    cases at_b : place b with
    | outside => exact absurd at_b placed
    | allocated special =>
      rw [(h.allocated b special).2 at_b] at free
      cases free
    | listed q =>
      have fits := h.fits b q at_b
      cases q with
      | free p =>
        obtain rfl : p = page := fits.symm.trans record
        exact .inl (some _ at_b)
      | localFree p =>
        obtain rfl : p = page := fits.symm.trans record
        exact .inr (.inl (some _ at_b))
      | threadFree g =>
        have counted := (counted_iff h record).1 (by rw [at_b]; trivial)
        rw [at_b] at counted
        obtain shared := counted.resolve_right (by rintro ⟨special, absurd⟩; cases absurd)
        exact .inr (.inr ⟨b, (h.onChain (.threadFree _) b).2 (at_b.trans shared), record⟩)
      | detached => exact absurd at_b h.not_detached

end Read

theorem Inv.partition {s : State} (h : Inv s) : Partition s := by
  obtain ⟨home, place, pages, blocks⟩ := h
  have chain : ∀ q, ∃ l, Chain s.blockNext 0 (s.heads 0 q) l ∧ l.Nodup := by
    intro q
    obtain ⟨l, chain, -⟩ := blocks.lists q
    exact ⟨l, chain, chain.nodup⟩
  refine ⟨fun page => chain (.free page), fun page => chain (.localFree page),
    fun g => chain (.threadFree g), ?_, ?_⟩
  · rintro page b ⟨t, i, bin, queued⟩ mem
    rw [pages.inQueue] at queued
    obtain ⟨inside, placed⟩ := (mem_pageBlocks_iff pages blocks queued bin).1 mem
    have some : ∃ spot : Spot, spot.AtPlace page (place b) := by
      by_cases counted : (place b).Counted
      · rcases (counted_iff blocks inside).1 counted with shared | live
        · exact ⟨.threadFree, shared⟩
        · exact ⟨.allocated, live⟩
      · cases at_b : place b with
        | outside => exact absurd at_b placed
        | allocated special => exact ⟨.allocated, special, rfl⟩
        | listed q =>
          have fits := blocks.fits b q at_b
          cases q with
          | free page' =>
            exact ⟨.free, by rw [Spot.AtPlace, ← inside, show cxlPtrPage b = page' from fits]⟩
          | localFree page' =>
            exact ⟨.localFree, by rw [Spot.AtPlace, ← inside, show cxlPtrPage b = page' from fits]⟩
          | threadFree g =>
            rw [at_b] at counted
            exact absurd trivial counted
          | detached => exact absurd at_b blocks.not_detached
    obtain ⟨spot, at_spot⟩ := some
    exact ⟨spot, (blocks.foundAt spot).2 at_spot, fun spot' found =>
      ((blocks.foundAt spot').1 found).unique at_spot⟩
  · rintro page ⟨t, i, bin, queued⟩
    rw [pages.inQueue] at queued
    have isPage := (pages.owned page t i queued).1
    have sets : {b | cxlPtrPage b = page ∧ (place b).Counted} =
        {b ∈ pageBlocks s page | FoundAt s page b .threadFree} ∪
          {b ∈ pageBlocks s page | FoundAt s page b .allocated} := by
      ext b
      simp only [Set.mem_ofPred_eq, Set.mem_union, mem_pageBlocks_iff pages blocks queued bin,
        blocks.foundAt]
      constructor
      · rintro ⟨inside, counted⟩
        have placed : place b ≠ .outside := by
          intro outside
          rw [outside] at counted
          exact counted
        rcases (counted_iff blocks inside).1 counted with shared | live
        · exact .inl ⟨⟨inside, placed⟩, shared⟩
        · exact .inr ⟨⟨inside, placed⟩, live⟩
      · rintro (⟨⟨inside, -⟩, shared⟩ | ⟨⟨inside, -⟩, live⟩)
        · exact ⟨inside, (counted_iff blocks inside).2 (.inl shared)⟩
        · exact ⟨inside, (counted_iff blocks inside).2 (.inr live)⟩
    have finite : ∀ spot, {b ∈ pageBlocks s page | FoundAt s page b spot}.Finite := by
      intro spot
      apply (finite_page isPage).subset
      rintro b ⟨mem, -⟩
      exact ((mem_pageBlocks_iff pages blocks queued bin).1 mem).1
    rw [blocks.used page, countAt_eq, sets, Set.ncard_union_eq _ (finite _) (finite _)]
    rw [Set.disjoint_left]
    rintro b ⟨-, shared⟩ ⟨-, live⟩
    rw [blocks.foundAt] at shared live
    cases shared.unique live

/-- In every run in which at most `MAX_THREAD` clients register and `put` is used only by the clients
whose partitions lie in the hash table: each block of a page in a bin is in one place, `used` counts
the ones that are shared or allocated, and no allocated block is handed out. -/
theorem partition_of_careful {size : ℕ} {s : State}
    (reached : Reachable (step size) Careful State.init s) :
    Partition s ∧ ∀ a s', (∃ t kind, a = .alloc t kind) ∨ (∃ t g n, a = .find t g n) →
      step size s a = some s' → Careful s a s' → HandsOut s s' := by
  have inv := Inv.of_reachable reached
  refine ⟨inv.partition, ?_⟩
  rintro a s' (⟨t, kind, rfl⟩ | ⟨t, g, n, rfl⟩) run careful
  · simp only [step] at run
    split at run
    · next ready => exact (inv.allocStep ready.1 careful run).2
    · cases run
  · exact (inv.findStep run).2

/-- Client 1 after its first allocation. -/
theorem partition_of_first_alloc : ∃ s, Reachable (step (1 <<< 28)) Careful State.init s ∧
    s.allocated (cxlPageStart firstPage) = some true ∧ Partition s := by
  obtain ⟨s₁, s₂, s₃, init, alloc, find, -, -, -, -, -, live, -⟩ := exists_first_alloc 1
    (1 <<< 28) .rootRef le_rfl (by decide) (by decide)
  have reached : Reachable (step (1 <<< 28)) Careful State.init s₃ :=
    ((Reachable.start.next init (show 1 ≤ maxThread by decide)).next alloc
      (show Kind.rootRef.bytes ≤ 1024 by decide)).next find trivial
  exact ⟨s₃, reached, live, (partition_of_careful reached).1⟩

/-- The partition of client 65 lies on the header of the first segment: its `put` of a key with hash
8 stores the new element into `local_free` of the element's own page. -/
theorem put_over_header : ∃ s, Reachable (step (1 <<< 28)) (fun _ _ _ => True) State.init s ∧
    ¬ Partition s := by
  obtain ⟨s₁, s₂, s₃, init, alloc, find, sas, header, first, local_, bs, live, registered, idle, -⟩ :=
    exists_first_alloc 65 (1 <<< 28) (.obj 24) (by decide) (by decide)
      (by decide)
  have before : Reachable (step (1 <<< 28)) Careful State.init s₃ :=
    ((Reachable.start.next init (show 65 ≤ maxThread by decide)).next alloc
      (show (Kind.obj 24).bytes ≤ 1024 by decide)).next find trivial
  obtain ⟨after, after_eq⟩ : ∃ after : State,
      after = { s₃ with localFree := update s₃.localFree firstPage (cxlPageStart firstPage) } :=
    ⟨_, rfl⟩
  have put : step (1 <<< 28) s₃ (.putEntry 65 8 (cxlPageStart firstPage)) = some after := by
    rw [after_eq]
    simp only [step, registered, idle]
    rfl
  refine ⟨after, (((Reachable.start.next init trivial).next alloc trivial).next find trivial).next put
    trivial, ?_⟩
  intro partition
  have inUse : InUse after firstPage := by
    obtain ⟨home, place, pages, blocks⟩ := Inv.of_reachable before
    have queued : InQueue s₃ (State.queueOf 65 (.obj 24)) firstPage := by
      rw [pages.inQueue, ← first]
      apply Lists.home_first pages.queues
      rw [first]
      decide
    rw [after_eq]
    exact ⟨65, 4, by decide, queued⟩
  have block : cxlPageStart firstPage ∈ pageBlocks after firstPage := by
    refine ⟨0, ?_, by simp⟩
    rw [after_eq]
    show 0 < pageSize / s₃.blockSize firstPage
    rw [bs]
    decide
  have listed : FoundAt after firstPage (cxlPageStart firstPage) .localFree := by
    obtain ⟨l, chain, -⟩ := partition.localFree firstPage
    have head : after.localFree firstPage = cxlPageStart firstPage := by
      rw [after_eq]
      show update s₃.localFree firstPage _ firstPage = _
      exact update_self _ _ _
    rw [head] at chain
    obtain ⟨rest, rfl, -⟩ := chain.exists_cons (by decide)
    exact ⟨_, by rw [head]; exact chain, List.mem_cons_self⟩
  have given : FoundAt after firstPage (cxlPageStart firstPage) .allocated := by
    rw [after_eq]
    show (s₃.allocated _).isSome
    rw [live]
    rfl
  cases (partition.place _ _ inUse block).unique listed given

end CxlShm.Heap
