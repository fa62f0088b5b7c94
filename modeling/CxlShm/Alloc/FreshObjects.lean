import CxlShm.Alloc.BinLists
import CxlShm.Alloc.Requests

/-!
# What a new object contains

`test_free` follows the first `embedded_ref_cnt` words behind the header of an object, from the moment
on that `cxl_malloc` has returned.  The allocation does not write them.  They hold what the block and its
page have been used for before: `cxl_free` clears the header of an object and not its data, and
`cxl_page_init` clears the headers of the new blocks, so that a free-list link of an earlier cut of the
page stays where it is not under one of these.  In a run that leaves neither behind they are null.
-/

namespace CxlShm.Heap

open Linked Counting Function Reachability

/-- `embedded_ref_offset` for number `i` of the object at `b`. -/
def embeddedRefAt (b i : ℕ) : ℕ := b + sizeofCXLObj + 8 * i

/-- The embedded references that `test_free` follows are null. -/
def EmbeddedNull (s : State) (b embeddedRefCnt : ℕ) : Prop :=
  ∀ i < embeddedRefCnt, s.blockNext (embeddedRefAt b i) = 0

/-- The step gives client `t` the block `b` for the object of a `cxl_malloc(dataSize, ..)`. -/
structure Gives (t dataSize b : ℕ) (s : State) (a : Action) (s' : State) : Prop where
  request : a = .alloc t (.obj dataSize) ∨
    ∃ g n page, a = .find t g n ∧ s.call t = .find (.obj dataSize) page
  fresh : s.allocated b = none
  allocated : s'.allocated b = some false

/-! ## What the pages have been cut for -/

/-- The heap, with the bins that each page has been cut for so far, the last one first. -/
structure Traced where
  heap : State
  bins : ℕ → List ℕ

/-- The page that `cxl_page_init` cuts into blocks in this step, with the bin. -/
def State.cut (size : ℕ) (s : State) : Action → Option (ℕ × ℕ)
  | .find t g _ =>
    match s.call t with
    | .idle => none
    | .find kind page =>
      if page = 0 then
        (s.cxlPageFresh size (State.queueOf t kind) g).map fun r => (r.2, (State.queueOf t kind).2)
      else none
  | .threadInit .. | .alloc .. | .free .. | .store .. | .putEntry .. => none

namespace Traced

def init : Traced := ⟨State.init, fun _ => []⟩

/-- What the pages have been cut for after the step. -/
def record (bins : ℕ → List ℕ) : Option (ℕ × ℕ) → ℕ → List ℕ
  | none => bins
  | some (page, i) => update bins page (i :: bins page)

def step (size : ℕ) (s : Traced) (a : Action) : Option Traced :=
  (Heap.step size s.heap a).map fun heap => ⟨heap, record s.bins (s.heap.cut size a)⟩

end Traced

/-- The word lies behind the header of one of the blocks that `page` has in bin `i`. -/
def Behind (page i x : ℕ) : Prop :=
  ∃ b, InPage page i b ∧ b + sizeofCXLObj ≤ x ∧ x < b + initBlockSize i

/-- Nothing is left behind: the words of a block that `cxl_free` does not clear are 0, and where a page is
cut for objects, no link of an earlier cut is left behind the header of one of the new blocks. -/
structure Tidy (size : ℕ) (s : Traced) (a : Action) (s' : Traced) : Prop where
  careful : Careful s.heap a s'.heap
  freed : ∀ t special b x, a = .free t special b → x % 8 = 0 →
    b + State.clearedBytes special (s.heap.blockSize (cxlPtrPage b)) ≤ x →
    x < b + s.heap.blockSize (cxlPtrPage b) → s.heap.blockNext x = 0
  cut : ∀ page i k x, s.heap.cut size a = some (page, i) → 2 ≤ i → k ∈ s.bins page →
    InPage page k x → Behind page i x → s.heap.blockNext x = 0

section

variable {size t u n g page i k b b' x dataSize : ℕ} {special : Bool} {kind : Kind} {home : Homes}
  {place : ℕ → Place} {bins : ℕ → List ℕ} {s s' : State}

/-! ## Blocks and the words in them -/

/-- Two blocks of a page that share a word are the same block. -/
theorem InPage.eq_of_shared (h : InPage page i b) (h' : InPage page i b') (from_b : b ≤ x)
    (to_b : x < b + initBlockSize i) (from_b' : b' ≤ x) (to_b' : x < b' + initBlockSize i) : b = b' := by
  rcases Nat.le_total b b' with before | after
  · exact (h.eq_of_inside h' before (by omega)).symm
  · exact h'.eq_of_inside h after (by omega)

/-- Blocks begin at words. -/
theorem InPage.aligned (h : InPage page i b) : b % 8 = 0 := by
  obtain ⟨j, -, rfl⟩ := h.at_index
  obtain ⟨g, k, -, hk, rfl⟩ := h.isPage
  have unit : initBlockSize i % 8 = 0 := by
    rw [initBlockSize, sizeofMessageQueue]
    split
    · rfl
    · split
      · rfl
      · split <;> omega
  have offset : initBlockSize i * j % 8 = 0 := by
    rw [Nat.mul_mod, unit, Nat.zero_mul, Nat.zero_mod]
  rw [cxlPageStart_metaPage hk]
  omega

/-- No block begins behind the header of another one. -/
theorem InPage.not_behind (h : InPage page i x) : ¬ Behind page i x := by
  rintro ⟨b, inPage, header, inside⟩
  have pos : 0 < sizeofCXLObj := by decide
  have same := inPage.eq_of_inside h (by omega) inside
  omega

/-- The word is in an allocated block. -/
def Live (bins : ℕ → List ℕ) (s : State) (x : ℕ) : Prop :=
  ∃ b i rest, (s.allocated b).isSome ∧ bins (cxlPtrPage b) = i :: rest ∧ b ≤ x ∧ x < b + initBlockSize i

/-- A word that is in no allocated block is 0, or the link of a block that its page has been cut into;
in a page of objects it is then not behind a header. -/
structure Clean (bins : ℕ → List ℕ) (s : State) : Prop where
  current : ∀ t i page, i < cxlBinSize → InQueue s (t, i) page → ∃ rest, bins page = i :: rest
  word : ∀ x, x % 8 = 0 → s.blockNext x ≠ 0 → Live bins s x ∨
    (∃ k ∈ bins (cxlPtrPage x), InPage (cxlPtrPage x) k x) ∧
      ∀ t i, 2 ≤ i → i < cxlBinSize → InQueue s (t, i) (cxlPtrPage x) → ¬ Behind (cxlPtrPage x) i x

theorem clean_init : Clean Traced.init.bins Traced.init.heap where
  current := by
    rintro t i page - ⟨l, chain, mem⟩
    obtain rfl := chain_null.1 (show Chain State.init.next 0 0 l from chain)
    cases mem
  word x _ some := absurd rfl some

namespace Clean

/-- An allocated block is one of the blocks that its page is cut into now. -/
theorem inPage_of_live (h : Clean bins s) (pages : Pages home s) (blocks : Blocks home place 0 s)
    (live : Live bins s x) : ∃ b t i, (s.allocated b).isSome ∧ home (cxlPtrPage x) = some (t, i) ∧
      i < cxlBinSize ∧ InPage (cxlPtrPage x) i b ∧ b ≤ x ∧ x < b + initBlockSize i := by
  obtain ⟨b, i, rest, allocated, current, from_b, to_b⟩ := live
  obtain ⟨special, given⟩ := Option.isSome_iff_exists.1 allocated
  have old := (blocks.allocated b special).1 given
  obtain ⟨t, k, here, bin, inPage⟩ := (blocks.block b).1 (by simp [old])
  obtain ⟨rest', now⟩ := h.current t k _ bin ((pages.inQueue _ _).2 here)
  obtain ⟨rfl, -⟩ := List.cons.inj (now.symm.trans current)
  have same := inPage.cxlPtrPage_eq from_b to_b
  exact ⟨b, t, k, allocated, by rw [same]; exact here, bin, by rw [same]; exact inPage, from_b, to_b⟩

/-- What happens between two cuts: the words that change to something else than 0 are in allocated
blocks, or where a block begins. -/
theorem of_words (h : Clean bins s) (pages : Pages home s)
    (queued : ∀ t i page, i < cxlBinSize → InQueue s' (t, i) page → InQueue s (t, i) page)
    (words : ∀ x, x % 8 = 0 → s'.blockNext x ≠ 0 → Live bins s' x ∨ IsBlock home x ∨
      s.blockNext x ≠ 0 ∧ ¬ Live bins s x) : Clean bins s' where
  current t i page bin inQueue := h.current t i page bin (queued t i page bin inQueue)
  word x aligned some := by
    rcases words x aligned some with live | ⟨t, i, here, bin, inPage⟩ | ⟨old, dead⟩
    · exact .inl live
    · obtain ⟨rest, now⟩ := h.current t i _ bin ((pages.inQueue _ _).2 here)
      refine .inr ⟨⟨i, by simp [now], inPage⟩, fun u k _ bin' inQueue => ?_⟩
      have same := (pages.inQueue _ _).1 (queued u k _ bin' inQueue)
      rw [here] at same
      obtain ⟨-, rfl⟩ := Prod.mk.inj (Option.some.inj same)
      exact inPage.not_behind
    · obtain ⟨link, clear⟩ := (h.word x aligned old).resolve_left dead
      exact .inr ⟨link, fun t i object bin inQueue => clear t i object bin (queued t i _ bin inQueue)⟩

/-- A block that is on a list holds zeros behind its header. -/
theorem null_of_listed (h : Clean bins s) (pages : Pages home s) (blocks : Blocks home place 0 s)
    (inPage : InPage page i b) (here : home page = some (t, i)) (bin : i < cxlBinSize) (object : 2 ≤ i)
    (unused : s.allocated b = none) (aligned : x % 8 = 0) (behind : b + sizeofCXLObj ≤ x)
    (inside : x < b + initBlockSize i) : s.blockNext x = 0 := by
  by_contra some
  have record : cxlPtrPage x = page := inPage.cxlPtrPage_eq (by omega) inside
  rcases h.word x aligned some with live | ⟨-, clear⟩
  · obtain ⟨b', u, k, allocated, here', -, inPage', from_b', to_b'⟩ := h.inPage_of_live pages blocks live
    rw [record] at here' inPage'
    rw [here] at here'
    obtain ⟨-, rfl⟩ := Prod.mk.inj (Option.some.inj here')
    obtain rfl := inPage.eq_of_shared inPage' (by omega) inside from_b' to_b'
    rw [unused] at allocated
    cases allocated
  · rw [record] at clear
    exact clear t i object bin ((pages.inQueue _ _).2 here) ⟨b, inPage, behind, inside⟩

end Clean

/-! ## The moves -/

/-- The words of an object that is given away are 0 behind its header, as far as it was asked for. -/
def GivesNull (kind : Kind) (s s' : State) : Prop :=
  ∀ b, s.allocated b = none → s'.allocated b = some false →
    ∀ j, embeddedRefAt b j < b + kind.bytes → s'.blockNext (embeddedRefAt b j) = 0

theorem GivesNull.of_same (same : s'.allocated = s.allocated) : GivesNull kind s s' := by
  intro b unused given
  rw [same, unused] at given
  cases given

theorem blockNext_blockTo (run : s.blockTo kind page = some s') : s'.blockNext = s.blockNext := by
  simp only [State.blockTo] at run
  split at run
  · cases run
  · rw [← Option.some.inj run]

theorem free_ne_zero_of_blockTo (run : s.blockTo kind page = some s') : s.free page ≠ 0 := by
  intro none
  simp [State.blockTo, none] at run

theorem Clean.blockTo (h : Clean bins s) (pages : Pages home s) (blocks : Blocks home place 0 s)
    (here : home page = some (State.queueOf t kind)) (small : kind.bytes ≤ 1024)
    (run : s.blockTo kind page = some s') : Clean bins s' ∧ GivesNull kind s s' := by
  obtain ⟨unused, same, -⟩ := blocks.take here (serves_queueOf small) run
  have given := State.allocated_blockTo run
  have words := blockNext_blockTo run
  constructor
  · refine h.of_words pages ?_ ?_
    · intro u k p _ inQueue
      simpa only [InQueue, Queued, same.next, same.first] using inQueue
    · intro x _ some
      rw [words] at some
      by_cases live : Live bins s x
      · obtain ⟨b, i, rest, allocated, holds⟩ := live
        refine .inl ⟨b, i, rest, ?_, holds⟩
        rw [given]
        by_cases new : b = s.free page
        · simp [new]
        · rwa [update_of_ne new]
      · exact .inr (.inr ⟨some, live⟩)
  · intro b before after j inside
    rw [given] at after
    have at_head : b = s.free page := by
      by_contra other
      rw [update_of_ne other, before] at after
      cases after
    rw [at_head, update_self] at after
    have object : kind.special = false := Option.some.inj after
    obtain ⟨listed, record⟩ := blocks.place_free (free_ne_zero_of_blockTo run)
    obtain ⟨u, k, here', bin, inPage⟩ := (blocks.block b).1 (by rw [at_head]; simp [listed])
    rw [at_head, record] at here' inPage
    rw [here] at here'
    obtain ⟨-, rfl⟩ := Prod.mk.inj (Option.some.inj here')
    have room := bytes_le_initBlockSize small
    rw [words]
    rw [at_head] at inside before ⊢
    have aligned : embeddedRefAt (s.free page) j % 8 = 0 := by
      have start := inPage.aligned
      rw [embeddedRefAt, sizeofCXLObj]
      omega
    exact h.null_of_listed pages blocks inPage here bin (two_le_queueOf (t := t) object) before aligned
      (Nat.le_add_right _ _) (lt_of_lt_of_le inside (Nat.add_le_add_left room _))

theorem Blocks.blockNext_collectBlocks {tail : ℕ} (h : Blocks home place tail s)
    (run : State.collectBlocks n tail s = some s') (inside : ¬ IsBlock home x) :
    s'.blockNext x = s.blockNext x := by
  induction n generalizing place tail s with
  | zero =>
    simp only [State.collectBlocks] at run
    split at run
    · rw [← Option.some.inj run]
    · cases run
  | succ n ih =>
    by_cases done : tail = 0
    · simp [State.collectBlocks, done] at run
    · simp only [State.collectBlocks, if_neg done] at run
      have head : s.heads tail .detached ≠ 0 := done
      have listed : place tail = .listed .detached := stack_eq_some.1 (h.lists.place_head head)
      have other : x ≠ tail := by
        rintro rfl
        exact inside ((h.block x).1 (by simp [listed]))
      have rest := ih (h.collect done) run
      simpa only [update_of_ne other] using rest

/-- Collecting writes the first words of blocks only. -/
theorem Blocks.blockNext_collect (h : Blocks home place 0 s)
    (run : s.cxlPageFreeCollect page n = some s') (inside : ¬ IsBlock home x) :
    s'.blockNext x = s.blockNext x := by
  obtain ⟨s₁, collected, rfl⟩ := Option.map_eq_some_iff.1 run
  have merged : (s₁.mergeLocalFree page).blockNext = s₁.blockNext := by
    rw [State.mergeLocalFree]
    split <;> rfl
  rw [merged]
  rw [State.cxlThreadFreeCollect] at collected
  split at collected
  · rw [← Option.some.inj collected]
  · obtain ⟨place', detached⟩ := h.detach (g := segmentIndex page)
    exact detached.blockNext_collectBlocks collected inside

theorem Clean.collect (h : Clean bins s) (pages : Pages home s) (blocks : Blocks home place 0 s)
    (run : s.cxlPageFreeCollect page n = some s') : Clean bins s' := by
  obtain ⟨same, -⟩ := blocks.cxlPageFreeCollect run
  refine h.of_words pages ?_ ?_
  · intro u k p _ inQueue
    simpa only [InQueue, Queued, same.next, same.first] using inQueue
  · intro x _ some
    by_cases inside : IsBlock home x
    · exact .inr (.inl inside)
    · rw [blocks.blockNext_collect run inside] at some
      by_cases live : Live bins s x
      · refine .inl ?_
        rw [Live, State.allocated_cxlPageFreeCollect run]
        exact live
      · exact .inr (.inr ⟨some, live⟩)

/-- What the loop of `cxl_page_init` writes is 0 or a link. -/
theorem linkBlocks_cases {bs header block : ℕ} {m : ℕ → ℕ}
    (some : State.linkBlocks bs header n block m x ≠ 0) :
    x ∈ blocksFrom bs n block ∨ State.linkBlocks bs header n block m x = m x := by
  induction n generalizing block m with
  | zero => exact .inr rfl
  | succ n ih =>
    rw [State.linkBlocks] at some ⊢
    rcases ih some with later | kept
    · exact .inl (List.mem_cons_of_mem _ later)
    · by_cases first : x = block
      · exact .inl (first ▸ List.mem_cons_self)
      · rw [kept, update_of_ne first] at some ⊢
        rw [memset] at some ⊢
        split at some
        · exact absurd rfl some
        · next outside => exact .inr (if_neg outside)

theorem blockNext_cxlPageInit (isPage : IsPage page) (bin : i < cxlBinSize)
    (some : (s.cxlPageInit special page (initBlockSize i)).blockNext x ≠ 0) : InPage page i x ∨
      (s.cxlPageInit special page (initBlockSize i)).blockNext x = s.blockNext x := by
  have pos := initBlockSize_pos bin
  have fits := initBlockSize_le bin
  have size : pageSize = 65536 := rfl
  have many : 0 < pageSize / initBlockSize i := Nat.div_pos (by omega) pos
  simp only [State.cxlPageInit] at some ⊢
  by_cases last : x = cxlPageStart page + (pageSize / initBlockSize i - 1) * initBlockSize i
  · exact .inl ⟨isPage, pageSize / initBlockSize i - 1, by omega, by rw [last, Nat.mul_comm]⟩
  · rw [update_of_ne last] at some ⊢
    refine (linkBlocks_cases some).imp_left fun linked => ?_
    obtain ⟨j, before, rfl⟩ := mem_blocksFrom.1 linked
    exact ⟨isPage, j, by omega, rfl⟩

/-- A page that is cut anew is not in a bin, so that none of its words is in an allocated block. -/
theorem Clean.cxlPageFresh (h : Clean bins s) (pages : Pages home s) (blocks : Blocks home place 0 s)
    (registered : s.registered t = true) (bin : i < cxlBinSize)
    (run : s.cxlPageFresh size (t, i) g = some (s', page))
    (clear : 2 ≤ i → ∀ k ∈ bins page, ∀ x, InPage page k x → Behind page i x → s.blockNext x = 0) :
    Clean (update bins page (i :: bins page)) s' := by
  obtain ⟨home', -, pages', -, here, -, home₂, rfl, free, same, -⟩ :=
    pages.cxlPageFresh blocks registered bin run
  have isPage := (pages'.owned page t i here).1
  have homeless : ∀ u k, k < cxlBinSize → home page ≠ some (u, k) := by
    intro u k bin_k at_home
    rw [← same page u k bin_k, free] at at_home
    obtain ⟨-, rfl⟩ := Prod.mk.inj (Option.some.inj at_home)
    exact Nat.lt_irrefl _ bin_k
  have others : ∀ u k p, k < cxlBinSize → p ≠ page → InQueue s' (u, k) p → InQueue s (u, k) p := by
    intro u k p bin_k other inQueue
    rw [pages'.inQueue, update_of_ne other] at inQueue
    rwa [pages.inQueue, ← same p u k bin_k]
  have words : ∀ x, s'.blockNext x ≠ 0 → InPage page i x ∨ s.blockNext x ≠ 0 := by
    intro x some
    obtain ⟨s₂, kept, -, -, rfl⟩ := State.cxlPageFresh_cases run
    rw [pages.queueBlockSize t i registered] at some
    have cut : (s₂.takeFreePage t).1.blockNext = s.blockNext := kept.blockNext
    refine (blockNext_cxlPageInit isPage bin some).imp_right fun same => ?_
    rw [← cut, ← same]
    exact some
  refine ⟨?current, ?word⟩
  case current =>
    intro u k p bin_k inQueue
    by_cases same_page : p = page
    · subst same_page
      rw [pages'.inQueue, update_self] at inQueue
      obtain ⟨rfl, rfl⟩ := Prod.mk.inj (Option.some.inj inQueue)
      exact ⟨_, update_self _ _ _⟩
    · rw [update_of_ne same_page]
      exact h.current u k p bin_k (others u k p bin_k same_page inQueue)
  case word =>
    intro x aligned some
    have only : ∀ u k, InQueue s' (u, k) page → k = i := by
      intro u k inQueue
      rw [pages'.inQueue, update_self] at inQueue
      exact (Prod.mk.inj (Option.some.inj inQueue)).2.symm
    rcases words x some with start | old
    · have record := start.cxlPtrPage_eq le_rfl (Nat.lt_add_of_pos_right (initBlockSize_pos bin))
      rw [record, update_self]
      refine .inr ⟨⟨i, List.mem_cons_self, start⟩, fun u k _ _ inQueue => ?_⟩
      rw [only u k inQueue]
      exact start.not_behind
    · rcases h.word x aligned old with live | ⟨⟨k, cut, link⟩, apart⟩
      · obtain ⟨b, j, rest, allocated, current, holds⟩ := live
        refine .inl ⟨b, j, rest, ?_, ?_, holds⟩
        · rw [State.allocated_cxlPageFresh run]
          exact allocated
        · rw [update_of_ne]
          · exact current
          · rintro here_b
            obtain ⟨special, given⟩ := Option.isSome_iff_exists.1 allocated
            have placed := (blocks.allocated b special).1 given
            obtain ⟨u, k, at_home, bin_k, -⟩ := (blocks.block b).1 (by simp [placed])
            rw [here_b] at at_home
            exact homeless u k bin_k at_home
      · refine .inr ⟨⟨k, ?_, link⟩, fun u k' object bin_k inQueue behind => ?_⟩
        · by_cases same_page : cxlPtrPage x = page
          · rw [same_page, update_self]
            rw [same_page] at cut
            exact List.mem_cons_of_mem _ cut
          · rwa [update_of_ne same_page]
        · by_cases same_page : cxlPtrPage x = page
          · rw [same_page] at inQueue behind cut link
            obtain rfl := only u k' inQueue
            exact old (clear object k cut x link behind)
          · exact apart u k' object bin_k (others u k' _ bin_k same_page inQueue) behind

theorem Clean.setCall {c : Call} (h : Clean bins s) : Clean bins (s.setCall t c) :=
  ⟨h.current, h.word⟩

/-! ## The steps -/

theorem Clean.allocStep (h : Clean bins s) (inv : Inv s) (small : kind.bytes ≤ 1024)
    (run : s.allocStep t kind = some s') : Clean bins s' ∧ GivesNull kind s s' := by
  obtain ⟨home, place, pages, blocks⟩ := inv
  have inside : ¬ freePage < (State.queueOf t kind).2 := Nat.lt_asymm (cxlPageQueue_lt small)
  simp only [State.allocStep, if_neg inside] at run
  split at run
  · next found =>
    exact h.blockTo pages blocks (Lists.home_first pages.queues found.1) small run
  · obtain rfl := Option.some.inj run
    exact ⟨h.setCall, .of_same rfl⟩

/-- A block of a page that has been cut in this step, or of one that has been collected. -/
theorem Clean.findStep (h : Clean bins s) (inv : Inv s) (calling : s.call t = .find kind page)
    (clear : ∀ p i, s.cut size (.find t g n) = some (p, i) → 2 ≤ i → ∀ k ∈ bins p, ∀ x,
      InPage p k x → Behind p i x → s.blockNext x = 0)
    (run : s.findStep size t g n = some s') :
    Clean (Traced.record bins (s.cut size (.find t g n))) s' ∧ GivesNull kind s s' := by
  obtain ⟨home, place, pages, blocks⟩ := inv
  obtain ⟨registered, small, cursor⟩ := pages.call t kind page calling
  simp only [State.findStep, calling] at run
  by_cases last : page = 0
  · rw [if_pos last] at run
    obtain ⟨⟨s₁, page₁⟩, fresh, taken⟩ := Option.bind_eq_some_iff.1 run
    have cut : s.cut size (.find t g n) = some (page₁, (State.queueOf t kind).2) := by
      simp only [State.cut, calling, if_pos last, fresh, Option.map_some]
    obtain ⟨home₁, place₁, pages₁, blocks₁, here, -⟩ :=
      pages.cxlPageFresh blocks registered (cxlPageQueue_lt small) fresh
    have clean := h.cxlPageFresh pages blocks registered (cxlPageQueue_lt small) fresh
      (clear page₁ _ cut)
    have blocks₂ : Blocks home₁ place₁ 0 (s₁.setCall t .idle) :=
      blocks₁.of_same rfl rfl rfl rfl rfl rfl
    obtain ⟨clean', null⟩ := clean.setCall.blockTo (pages₁.setCall (by simp)) blocks₂ here small taken
    have fixed := State.allocated_cxlPageFresh fresh
    rw [cut]
    refine ⟨clean', fun b unused given => null b ?_ given⟩
    change s₁.allocated b = none
    rw [fixed]
    exact unused
  · have cut : s.cut size (.find t g n) = none := by
      simp only [State.cut, calling, if_neg last]
    rw [if_neg last] at run
    rw [cut]
    obtain ⟨s₁, collected, rest⟩ := Option.bind_eq_some_iff.1 run
    obtain ⟨same, place₁, blocks₁⟩ := blocks.cxlPageFreeCollect collected
    have pages₁ := pages.of_samePages same
    have clean := h.collect pages blocks collected
    have fixed := State.allocated_cxlPageFreeCollect collected
    split at rest
    · have blocks₂ : Blocks home place₁ 0 (s₁.setCall t .idle) :=
        blocks₁.of_same rfl rfl rfl rfl rfl rfl
      obtain ⟨clean', null⟩ := clean.setCall.blockTo (pages₁.setCall (by simp)) blocks₂
        (cursor.resolve_left last) small rest
      refine ⟨clean', fun b unused given => null b ?_ given⟩
      change s₁.allocated b = none
      rw [fixed]
      exact unused
    · obtain rfl := Option.some.inj rest
      exact ⟨clean.setCall, .of_same fixed⟩

/-- A free takes no page into a bin. -/
theorem Inv.inQueue_of_cxlFree (inv : Inv s) (idle : s.call t = .idle)
    (live : s.allocated b = some special) (run : s.cxlFree t special b = some s') (bin : i < cxlBinSize)
    (inQueue : InQueue s' (u, i) page) : InQueue s (u, i) page := by
  have inv' := inv
  obtain ⟨home, place, pages, blocks⟩ := inv
  by_cases own : s.segmentThreadId (segmentIndex b) = t
  · obtain ⟨l, row, -⟩ := pages.queues.exists_row (u, i)
    have after := inv'.row_cxlFree idle live own run bin row
    obtain ⟨l', chain, mem⟩ := inQueue
    rw [chain.unique after.1] at mem
    refine ⟨l, row.1, ?_⟩
    split at mem
    · exact List.mem_of_mem_erase mem
    · exact mem
  · have normal : (s.info (segmentIndex b)).state ≠ .potentialLeaking := by
      rw [blocks.normal]
      decide
    rw [State.foreign_cxlFree own normal, State.recoveryCxlFree] at run
    simp only [if_pos own] at run
    obtain rfl := Option.some.inj run
    exact inQueue

/-- A free changes the words of its block only, to 0 and the link. -/
theorem blockNext_cxlFree (normal : (s.info (segmentIndex b)).state = .normal)
    (run : s.cxlFree t special b = some s') (other : x ≠ b) :
    s'.blockNext x = memset s.blockNext b (State.clearedBytes special (s.blockSize (cxlPtrPage b))) x ∧
      s'.allocated = update s.allocated b none := by
  by_cases own : s.segmentThreadId (segmentIndex b) = t
  · obtain ⟨-, allocated, -, words⟩ := State.own_cxlFree own run
    exact ⟨words x other, allocated⟩
  · have not_leaking : (s.info (segmentIndex b)).state ≠ .potentialLeaking := by
      rw [normal]
      decide
    rw [State.foreign_cxlFree own not_leaking, State.recoveryCxlFree] at run
    simp only [if_pos own] at run
    obtain rfl := Option.some.inj run
    exact ⟨update_of_ne other _ _, rfl⟩

theorem Clean.cxlFree (h : Clean bins s) (inv : Inv s) (idle : s.call t = .idle)
    (live : s.allocated b = some special)
    (clear : ∀ x, x % 8 = 0 → b + State.clearedBytes special (s.blockSize (cxlPtrPage b)) ≤ x →
      x < b + s.blockSize (cxlPtrPage b) → s.blockNext x = 0)
    (run : s.cxlFree t special b = some s') : Clean bins s' := by
  have inv' := inv
  obtain ⟨home, place, pages, blocks⟩ := inv
  obtain ⟨v, j, here, bin_j, inPage, -, size_eq, -⟩ := Inv.page_of_allocated pages blocks live
  refine h.of_words pages (fun u i page bin => inv'.inQueue_of_cxlFree idle live run bin) ?_
  intro x aligned some
  by_cases start : x = b
  · rw [start]
    exact .inr (.inl ⟨v, j, here, bin_j, inPage⟩)
  · obtain ⟨word, allocated⟩ := blockNext_cxlFree (blocks.normal _) run start
    rw [word, memset] at some
    split at some
    · exact absurd rfl some
    · next outside =>
      by_cases was : Live bins s x
      · obtain ⟨b', i, rest, given, current, from_b, to_b⟩ := was
        refine .inl ⟨b', i, rest, ?_, current, from_b, to_b⟩
        by_cases same : b' = b
        · subst same
          obtain ⟨rest', now⟩ := h.current v j _ bin_j ((pages.inQueue _ _).2 here)
          obtain ⟨rfl, -⟩ := List.cons.inj (now.symm.trans current)
          exact absurd (clear x aligned (by omega) (by rw [size_eq]; exact to_b)) some
        · rwa [allocated, update_of_ne same]
      · exact .inr (.inr ⟨some, was⟩)

theorem Clean.store {a v : ℕ} (h : Clean bins s) (inv : Inv s) (live : (s.allocated b).isSome)
    (from_b : b ≤ a) (to_b : a < b + s.blockSize (cxlPtrPage b)) :
    Clean bins { s with blockNext := update s.blockNext a v } := by
  obtain ⟨home, place, pages, blocks⟩ := inv
  obtain ⟨special, given⟩ := Option.isSome_iff_exists.1 live
  obtain ⟨u, i, here, bin, -, -, size_eq, -⟩ := Inv.page_of_allocated pages blocks given
  obtain ⟨rest, current⟩ := h.current u i _ bin ((pages.inQueue _ _).2 here)
  refine h.of_words pages (fun _ _ _ _ inQueue => inQueue) ?_
  intro x _ some
  by_cases here : x = a
  · rw [here]
    exact .inl ⟨b, i, rest, live, current, from_b, by rwa [← size_eq]⟩
  · have old : s.blockNext x ≠ 0 := by
      simpa only [update_of_ne here] using some
    by_cases was : Live bins s x
    · exact .inl was
    · exact .inr (.inr ⟨old, was⟩)

theorem Clean.threadInit (h : Clean bins s) (inv : Inv s) : Clean bins (s.threadInit t) := by
  obtain ⟨home, place, pages, -⟩ := inv
  refine h.of_words pages ?_ ?_
  · rintro u i page - ⟨l, chain, mem⟩
    by_cases same : u = t
    · have none : (s.threadInit t).first (u, i) = 0 := if_pos same
      rw [Queued, none] at chain
      rw [chain_null.1 chain] at mem
      cases mem
    · have kept : (s.threadInit t).first (u, i) = s.first (u, i) := if_neg same
      rw [Queued, kept] at chain
      exact ⟨l, chain, mem⟩
  · intro x _ some
    by_cases was : Live bins s x
    · exact .inl was
    · exact .inr (.inr ⟨some, was⟩)

/-- One step of a tidy run. -/
theorem Clean.step {s s' : Traced} {a : Action} (h : Clean s.bins s.heap) (inv : Inv s.heap)
    (run : s.step size a = some s') (tidy : Tidy size s a s') : Clean s'.bins s'.heap := by
  obtain ⟨heap, next, rfl⟩ := Option.map_eq_some_iff.1 run
  have careful := tidy.careful
  cases a with
  | threadInit t =>
    simp only [Heap.step] at next
    split at next
    · obtain rfl := Option.some.inj next
      exact h.threadInit inv
    · cases next
  | alloc t kind =>
    simp only [Heap.step] at next
    split at next
    · exact (h.allocStep inv careful next).1
    · cases next
  | find t g n =>
    cases calling : s.heap.call t with
    | idle => simp [Heap.step, State.findStep, calling] at next
    | find kind page =>
      exact (h.findStep inv calling
        (fun p i cut object k mem x => tidy.cut p i k x cut object mem) next).1
  | free t special b =>
    simp only [Heap.step] at next
    split at next
    · next ready =>
      exact h.cxlFree inv ready.2.1 ready.2.2 (fun x => tidy.freed t special b x rfl) next
    · cases next
  | store b a v =>
    simp only [Heap.step] at next
    split at next
    · next ready =>
      obtain rfl := Option.some.inj next
      exact h.store inv ready.1 ready.2.1 ready.2.2
    · cases next
  | putEntry t k v =>
    simp only [Heap.step] at next
    split at next
    · next ready =>
      have in_table : hashTableStart + (t - 1) * hashTableSize + 8 * k < segmentsAreaStart := by
        have bound : t ≤ 64 := careful
        have word := ready.2.2
        simp only [hashTableStart, hashTableSize, segmentsAreaStart]
        omega
      obtain rfl := Option.some.inj next
      simp only [if_pos in_table]
      exact h
    · cases next

theorem Traced.heap_reachable {s : Traced}
    (reached : Reachable (Traced.step size) (Tidy size) Traced.init s) :
    Reachable (Heap.step size) Careful State.init s.heap := by
  refine reached.invariant (I := fun s => Reachable (Heap.step size) Careful State.init s.heap) .start ?_
  intro s a s' before run tidy
  obtain ⟨heap, next, rfl⟩ := Option.map_eq_some_iff.1 run
  exact before.next next tidy.careful

theorem clean_of_reachable {s : Traced}
    (reached : Reachable (Traced.step size) (Tidy size) Traced.init s) : Clean s.bins s.heap :=
  reached.invariant_of (J := fun s => Inv s.heap) (I := fun s => Clean s.bins s.heap)
    (fun _ before => .of_reachable (Traced.heap_reachable before)) clean_init
    fun _ _ _ inv _ clean run tidy => clean.step inv run tidy

/-- In every run in which each block is freed with zeros in its data, and in which no free-list link is
left behind a header where a page is cut for objects again, the embedded references of every new object
are null. -/
theorem embeddedNull_of_tidy {s s' : Traced} {a : Action} {embeddedRefCnt : ℕ}
    (reached : Reachable (Traced.step size) (Tidy size) Traced.init s) (run : s.step size a = some s')
    (tidy : Tidy size s a s') (gives : Gives t dataSize b s.heap a s'.heap)
    (small : dataSize + sizeofCXLObj ≤ 1024) (fits : 8 * embeddedRefCnt ≤ dataSize) :
    EmbeddedNull s'.heap b embeddedRefCnt := by
  have clean := clean_of_reachable reached
  have inv := Inv.of_reachable (Traced.heap_reachable reached)
  obtain ⟨heap, next, rfl⟩ := Option.map_eq_some_iff.1 run
  have bytes : (Kind.obj dataSize).bytes ≤ 1024 := small
  have null : GivesNull (.obj dataSize) s.heap heap := by
    rcases gives.request with rfl | ⟨g, n, page, rfl, calling⟩
    · simp only [Heap.step] at next
      split at next
      · exact (clean.allocStep inv bytes next).2
      · cases next
    · exact (clean.findStep inv calling
        (fun p i cut object k mem x => tidy.cut p i k x cut object mem) next).2
  intro i below
  apply null b gives.fresh gives.allocated
  rw [embeddedRefAt, Kind.bytes]
  omega

end

/-! ## Blocks that are used again -/

/-- `Careful`, computed. -/
def carefulCheck (_ : State) (a : Action) (_ : State) : Bool :=
  match a with
  | .threadInit t => t ≤ maxThread
  | .alloc _ kind => kind.bytes ≤ 1024
  | .putEntry t _ _ => t ≤ 64
  | .find .. | .free .. | .store .. => true

theorem careful_of_check {s s' : State} {a : Action} (passed : carefulCheck s a s' = true) :
    Careful s a s' := by
  cases a with
  | threadInit t => exact of_decide_eq_true (p := t ≤ maxThread) passed
  | alloc t kind => exact of_decide_eq_true (p := kind.bytes ≤ 1024) passed
  | putEntry t k v => exact of_decide_eq_true (p := t ≤ 64) passed
  | find t g n => trivial
  | free t special b => trivial
  | store b a v => trivial

/-- The words in the `n` bytes from `b` on are 0. -/
def zeros (s : State) (b n : ℕ) : Bool :=
  (List.range n).all fun d => (b + d) % 8 ≠ 0 || s.blockNext (b + d) = 0

/-- Every page is cut for one class only, and freed blocks hold zeros. -/
def tidyCheck (size : ℕ) (s : Traced) (a : Action) (s' : Traced) : Bool :=
  carefulCheck s.heap a s'.heap &&
    (match a with
    | .free _ special b =>
      let bs := s.heap.blockSize (cxlPtrPage b)
      let cleared := State.clearedBytes special bs
      zeros s.heap (b + cleared) (bs - cleared)
    | _ => true) &&
    match s.heap.cut size a with
    | some (page, i) => (s.bins page).all fun k => k = i
    | none => true

theorem tidy_of_check {size : ℕ} {s s' : Traced} {a : Action} (passed : tidyCheck size s a s' = true) :
    Tidy size s a s' := by
  simp only [tidyCheck, Bool.and_eq_true] at passed
  obtain ⟨⟨careful, zero⟩, same⟩ := passed
  refine ⟨careful_of_check careful, ?freed, ?cut⟩
  case freed =>
    rintro t special b x rfl aligned from_b to_b
    have inside : x - (b + State.clearedBytes special (s.heap.blockSize (cxlPtrPage b))) ∈
        List.range (s.heap.blockSize (cxlPtrPage b) -
          State.clearedBytes special (s.heap.blockSize (cxlPtrPage b))) := by
      rw [List.mem_range]
      omega
    have word := List.all_eq_true.1 zero _ inside
    rw [Nat.add_sub_cancel' from_b] at word
    simpa [aligned] using word
  case cut =>
    intro page i k x cut _ mem inPage behind
    rw [cut] at same
    obtain rfl : k = i := of_decide_eq_true (List.all_eq_true.1 same k mem)
    exact absurd behind inPage.not_behind

/-- The next round of client 1 answers its request for an object with the block, in a state that
satisfies `P`. -/
def givesWith (block : ℕ) (P : State → Bool) (s : State) : Bool :=
  (step (1 <<< 28) s (.find 1 0 0)).any fun s' =>
    decide (s.call 1 = .find (.obj 24) 0) && decide (s.allocated block = none) &&
      decide (s'.allocated block = some false) && P s'

theorem gives_of_givesWith {block : ℕ} {P : State → Bool} {s : State}
    (gives : givesWith block P s = true) :
    ∃ s', step (1 <<< 28) s (.find 1 0 0) = some s' ∧ Gives 1 24 block s (.find 1 0 0) s' ∧
      P s' = true := by
  rw [givesWith] at gives
  cases run : step (1 <<< 28) s (.find 1 0 0) with
  | none =>
    rw [run] at gives
    cases gives
  | some s' =>
    rw [run] at gives
    simp only [Option.any_some, Bool.and_eq_true, decide_eq_true_eq] at gives
    obtain ⟨⟨⟨calling, fresh⟩, given⟩, content⟩ := gives
    exact ⟨s', rfl, ⟨.inr ⟨0, 0, 0, rfl, calling⟩, fresh, given⟩, content⟩

/-- Client 1 allocates an object of 200 bytes and one of 24 bytes, with their `RootRef`s, stores `word`
into the first data word of the second one, frees the second one and its `RootRef`, and asks for the object
of a `cxl_malloc(24, 1)`. -/
def recycling (word : ℕ) : List Action :=
  [.threadInit 1, .alloc 1 .rootRef, .find 1 0 0, .alloc 1 (.obj 200), .find 1 0 0,
    .alloc 1 .rootRef, .alloc 1 (.obj 24), .find 1 0 0,
    .store 134414336 (embeddedRefAt 134414336 0) word, .free 1 false 134414336,
    .free 1 true 134283280, .alloc 1 .rootRef, .alloc 1 (.obj 24)]

/-- The page of the second object is cut a second time then. -/
def cutTwice (s : Traced) : Bool :=
  givesWith 134414336 (fun _ => true) s.heap && (s.step (1 <<< 28) (.find 1 0 0)).any fun s' =>
    tidyCheck (1 <<< 28) s (.find 1 0 0) s' && decide (s'.bins (cxlPtrPage 134414336) = [4, 4])

theorem gives_of_cutTwice {s : Traced} (cut : cutTwice s = true) :
    ∃ s', s.step (1 <<< 28) (.find 1 0 0) = some s' ∧ Tidy (1 <<< 28) s (.find 1 0 0) s' ∧
      Gives 1 24 134414336 s.heap (.find 1 0 0) s'.heap ∧ s'.bins (cxlPtrPage 134414336) = [4, 4] := by
  obtain ⟨given, answer⟩ := Bool.and_eq_true_iff.1 cut
  cases next : s.step (1 <<< 28) (.find 1 0 0) with
  | none =>
    rw [next] at answer
    cases answer
  | some s' =>
    rw [next] at answer
    obtain ⟨tidy, twice⟩ := Bool.and_eq_true_iff.1 answer
    obtain ⟨heap, run, gives, -⟩ := gives_of_givesWith given
    obtain ⟨heap', run', same⟩ := Option.map_eq_some_iff.1 next
    have heap_eq : s'.heap = heap := by
      rw [← same]
      exact Option.some.inj (run'.symm.trans run)
    rw [← heap_eq] at gives
    exact ⟨s', rfl, tidy_of_check tidy, gives, of_decide_eq_true twice⟩

theorem cutTwice_recycling : (checkedRun (Traced.step (1 <<< 28)) (tidyCheck (1 <<< 28)) Traced.init
    (recycling 0)).any cutTwice = true := by
  decide +kernel

/-- With a zero in the data the page of the object is cut a second time, and the embedded reference of the
new object is null. -/
theorem recycled_null : ∃ s s' b, Reachable (Traced.step (1 <<< 28)) (Tidy (1 <<< 28)) Traced.init s ∧
    s.step (1 <<< 28) (.find 1 0 0) = some s' ∧ Gives 1 24 b s.heap (.find 1 0 0) s'.heap ∧
    s'.bins (cxlPtrPage b) = [4, 4] ∧ EmbeddedNull s'.heap b 1 := by
  obtain ⟨s, reached, last⟩ := exists_reachable_of_checkedRun (J := fun _ => True)
    (fun _ _ _ _ _ passed => ⟨trivial, tidy_of_check passed⟩) trivial cutTwice_recycling
  obtain ⟨s', next, tidy, gives, twice⟩ := gives_of_cutTwice last
  exact ⟨s, s', _, reached, next, gives, twice,
    embeddedNull_of_tidy reached next tidy gives (by decide) (by decide)⟩

theorem givesWith_recycling : (checkedRun (step (1 <<< 28)) carefulCheck State.init
    (recycling 134348800)).any (fun s =>
      givesWith 134414336 (fun s' => s'.blockNext (embeddedRefAt 134414336 0) = 134348800) s &&
        decide (s.allocated 134348800 = some false)) = true := by
  decide +kernel

/-- With the offset of the first object in the data the new object gets the same block, and finds the
first object in its embedded reference. -/
theorem recycled_not_null : ∃ s s' a b, Reachable (step (1 <<< 28)) Careful State.init s ∧
    step (1 <<< 28) s (.find 1 0 0) = some s' ∧ Gives 1 24 b s (.find 1 0 0) s' ∧
    s.allocated a = some false ∧ s'.blockNext (embeddedRefAt b 0) = a ∧ ¬ EmbeddedNull s' b 1 := by
  obtain ⟨s, reached, last⟩ := exists_reachable_of_checkedRun (J := fun _ => True)
    (fun _ _ _ _ _ passed => ⟨trivial, careful_of_check passed⟩) trivial givesWith_recycling
  obtain ⟨given, live⟩ := Bool.and_eq_true_iff.1 last
  obtain ⟨s', next, gives, word⟩ := gives_of_givesWith given
  have content : s'.blockNext (embeddedRefAt 134414336 0) = 134348800 := of_decide_eq_true word
  refine ⟨s, s', 134348800, 134414336, reached, next, gives, of_decide_eq_true live, content,
    fun null => ?_⟩
  have absurd : 0 = 134348800 := (null 0 Nat.one_pos).symm.trans content
  exact Nat.noConfusion absurd

end CxlShm.Heap
