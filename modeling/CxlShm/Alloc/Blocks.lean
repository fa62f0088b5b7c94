import CxlShm.Alloc.Heap
import CxlShm.Lib.Counting
import CxlShm.Lib.Stacks
import Mathlib.Data.Set.Finite.Lattice
import Mathlib.Order.Interval.Finset.Nat

/-!
# The blocks of the pages in use

The pages in the bins of the clients are cut into blocks.  Each block is in one place: on the list
`free` or `local_free` of its page, on the chain `thread_free` of its segment, on the chain that the
owner of the segment has detached from it, or allocated.  The moves of the allocator keep this, and
keep `used` the number of blocks of the page that are not on its own two lists.
-/

namespace CxlShm.Heap

open Linked Counting Function

/-- The lists that blocks are on. -/
inductive Stack
  | free (page : ℕ)
  | localFree (page : ℕ)
  | threadFree (g : ℕ)
  /-- what `cxl_thread_free_collect` has taken and not yet handed to the pages -/
  | detached
  deriving DecidableEq

/-- Where a block is; `outside` for what is not a block of a page in use. -/
inductive Place
  | outside
  | listed (q : Stack)
  | allocated (special : Bool)

def Place.stack : Place → Option Stack
  | .listed q => some q
  | .outside | .allocated _ => none

/-- The page counts the block in `used`. -/
def Place.Counted : Place → Prop
  | .listed (.threadFree _) | .listed .detached | .allocated _ => True
  | .outside | .listed (.free _) | .listed (.localFree _) => False

@[simp] theorem stack_outside : Place.outside.stack = none := rfl
@[simp] theorem stack_listed {q : Stack} : (Place.listed q).stack = some q := rfl
@[simp] theorem stack_allocated {special : Bool} : (Place.allocated special).stack = none := rfl

@[simp] theorem stack_eq_some {p : Place} {q : Stack} : p.stack = some q ↔ p = .listed q := by
  cases p <;> simp [Place.stack]

/-- The list is one for the block: of its page, of its segment. -/
def Stack.Fits (b : ℕ) : Stack → Prop
  | .free page | .localFree page => cxlPtrPage b = page
  | .threadFree g => segmentIndex b = g
  | .detached => True

/-- The heads of the lists, where `tail` is the chain that has been detached. -/
def State.heads (s : State) (tail : ℕ) : Stack → ℕ
  | .free page => s.free page
  | .localFree page => s.localFree page
  | .threadFree g => (s.info g).threadFree
  | .detached => tail

/-- The queue that each page is in. -/
abbrev Homes := ℕ → Option (ℕ × ℕ)

/-- One of the blocks that a page in bin `i` is cut into. -/
structure InPage (page i b : ℕ) : Prop where
  isPage : IsPage page
  at_index : ∃ j, j < pageSize / initBlockSize i ∧ b = cxlPageStart page + initBlockSize i * j

/-- A block of a page that is in a bin. -/
def IsBlock (home : Homes) (b : ℕ) : Prop :=
  ∃ t i, home (cxlPtrPage b) = some (t, i) ∧ i < cxlBinSize ∧ InPage (cxlPtrPage b) i b

/-- Blocks with this flag may lie in bin `i`: they are freed into the same bin, and what `cxl_free`
clears is theirs. -/
def Serves (special : Bool) (i : ℕ) : Prop :=
  cxlPageQueue special (initBlockSize i) = i ∧
    State.clearedBytes special (initBlockSize i) ≤ initBlockSize i

/-- Every block is in one place, and `used` counts those that the page has given away. -/
structure Blocks (home : Homes) (place : ℕ → Place) (tail : ℕ) (s : State) : Prop where
  lists : Stacks s.blockNext 0 (s.heads tail) fun b => (place b).stack
  block : ∀ b, place b ≠ .outside ↔ IsBlock home b
  fits : ∀ b q, place b = .listed q → q.Fits b
  used : ∀ page, s.used page = countAt cxlPtrPage page Place.Counted place
  allocated : ∀ b special, s.allocated b = some special ↔ place b = .allocated special
  bin : ∀ b special t i, place b = .allocated special → home (cxlPtrPage b) = some (t, i) →
    Serves special i
  normal : ∀ g, (s.info g).state = .normal

/-! ## Blocks and their pages -/

theorem initBlockSize_pos {i : ℕ} (hi : i < cxlBinSize) : 0 < initBlockSize i := by
  simp only [initBlockSize, sizeofMessageQueue, if_pos hi]
  split
  · omega
  · split <;> omega

theorem initBlockSize_le {i : ℕ} (hi : i < cxlBinSize) : initBlockSize i ≤ 1024 := by
  simp only [initBlockSize, sizeofMessageQueue, if_pos hi]
  simp only [cxlBinSize] at hi
  split
  · omega
  · split <;> omega

section InPage

variable {page page' i i' b b' a : ℕ}

/-- The bytes of a block lie in the 64 KiB of its page. -/
theorem InPage.inside (h : InPage page i b) (from_b : b ≤ a) (to_b : a < b + initBlockSize i) :
    ∃ x, x < pageSize ∧ a = cxlPageStart page + x := by
  obtain ⟨j, hj, rfl⟩ := h.at_index
  refine ⟨a - cxlPageStart page, ?_, by omega⟩
  have whole : initBlockSize i * (j + 1) ≤ pageSize :=
    (Nat.mul_le_mul_left _ hj).trans (Nat.mul_div_le _ _)
  rw [Nat.mul_add, Nat.mul_one] at whole
  omega

theorem InPage.cxlPtrPage_eq (h : InPage page i b) (from_b : b ≤ a) (to_b : a < b + initBlockSize i) :
    CxlShm.cxlPtrPage a = page := by
  obtain ⟨x, inside, rfl⟩ := h.inside from_b to_b
  exact h.isPage.cxlPtrPage_add inside

theorem InPage.ne_zero (h : InPage page i b) : b ≠ 0 := by
  obtain ⟨j, -, rfl⟩ := h.at_index
  have := h.isPage.cxlPageStart_pos
  omega

/-- A block is the only one that begins in its bytes. -/
theorem InPage.eq_of_inside (h : InPage page i b) (h' : InPage page i b') (from_b : b ≤ b')
    (to_b : b' < b + initBlockSize i) : b' = b := by
  obtain ⟨j, -, rfl⟩ := h.at_index
  obtain ⟨j', -, rfl⟩ := h'.at_index
  have low : initBlockSize i * j ≤ initBlockSize i * j' := by omega
  have high : initBlockSize i * j' < initBlockSize i * (j + 1) := by
    rw [Nat.mul_add, Nat.mul_one]
    omega
  have pos : 0 < initBlockSize i := by omega
  have same : j' = j := by
    have := Nat.le_of_mul_le_mul_left low pos
    have := Nat.lt_of_mul_lt_mul_left high
    omega
  rw [same]

end InPage

/-- Finitely many addresses lead to the record of a page. -/
theorem finite_page {page : ℕ} (h : IsPage page) : {b | cxlPtrPage b = page}.Finite := by
  apply (Set.finite_Ico (cxlPageStart page) (cxlPageStart page + pageSize)).subset
  intro b here
  exact h.of_cxlPtrPage here

theorem countAt_small {β : Type*} {page : ℕ} (h : IsPage page) (p : β → Prop) (place : ℕ → β) :
    countAt cxlPtrPage page p place < 2 ^ 32 - 1 := by
  have bound : {b | cxlPtrPage b = page}.ncard ≤
      (Set.Ico (cxlPageStart page) (cxlPageStart page + pageSize)).ncard :=
    Set.ncard_le_ncard (fun b here => h.of_cxlPtrPage here) (Set.finite_Ico _ _)
  rw [← Finset.coe_Ico, Set.ncard_coe_finset, Nat.card_Ico] at bound
  have counted := countAt_le (p := p) (f := place) (finite_page h)
  have size : pageSize = 65536 := rfl
  omega

theorem inc32_eq {x : ℕ} (h : x < 2 ^ 32 - 1) : inc32 x = x + 1 := by
  rw [inc32, Nat.mod_eq_of_lt]
  omega

theorem dec32_eq {x : ℕ} (pos : 0 < x) (h : x < 2 ^ 32 - 1) : dec32 x = x - 1 := by
  have whole : x + (2 ^ 32 - 1) = x - 1 + 2 ^ 32 := by omega
  rw [dec32, whole, Nat.add_mod_right, Nat.mod_eq_of_lt]
  omega

/-! ## Counting the blocks of a page -/

section Used

variable {β : Type*} {p : β → Prop} {place : ℕ → β} {used : ℕ → ℕ} {b : ℕ} {v : β}

theorem used_gain (h : ∀ page, used page = countAt cxlPtrPage page p place)
    (isPage : IsPage (cxlPtrPage b)) (old : ¬ p (place b)) (new : p v) (page : ℕ) :
    update used (cxlPtrPage b) (inc32 (used (cxlPtrPage b))) page =
      countAt cxlPtrPage page p (update place b v) := by
  by_cases here : page = cxlPtrPage b
  · subst here
    rw [update_self, countAt_update_gain (finite_page isPage) rfl old new, h,
      inc32_eq (countAt_small isPage _ _)]
  · rw [update_of_ne here, countAt_update_of_ne (Ne.symm here), h]

theorem used_lose (h : ∀ page, used page = countAt cxlPtrPage page p place)
    (isPage : IsPage (cxlPtrPage b)) (old : p (place b)) (new : ¬ p v) (page : ℕ) :
    update used (cxlPtrPage b) (dec32 (used (cxlPtrPage b))) page =
      countAt cxlPtrPage page p (update place b v) := by
  by_cases here : page = cxlPtrPage b
  · subst here
    have one_less := countAt_update_lose (finite_page isPage) rfl old new
    have counted := countAt_pos (finite_page isPage) rfl old
    rw [update_self, h, dec32_eq counted (countAt_small isPage _ _)]
    omega
  · rw [update_of_ne here, countAt_update_of_ne (Ne.symm here), h]

theorem used_keep (h : ∀ page, used page = countAt cxlPtrPage page p place)
    (same : p v ↔ p (place b)) (page : ℕ) :
    used page = countAt cxlPtrPage page p (update place b v) := by
  rw [countAt_update_of_iff same, h]

end Used

/-! ## One block changes its place -/

section Change

variable {home : Homes} {place : ℕ → Place} {allocated : ℕ → Option Bool} {b : ℕ} {v : Place}

theorem stack_update : (fun x => (update place b v x).stack) =
    update (fun x => (place x).stack) b v.stack := by
  funext x
  by_cases here : x = b
  · subst here
    simp
  · simp [here]

theorem block_update (h : ∀ x, place x ≠ .outside ↔ IsBlock home x) (old : place b ≠ .outside)
    (new : v ≠ .outside) (x : ℕ) : update place b v x ≠ .outside ↔ IsBlock home x := by
  by_cases here : x = b
  · subst here
    rw [update_self, ← h x]
    exact iff_of_true new old
  · rw [update_of_ne here, h x]

theorem fits_update (h : ∀ x q, place x = .listed q → q.Fits x) (new : ∀ q, v = .listed q → q.Fits b)
    (x : ℕ) (q : Stack) (listed : update place b v x = .listed q) : q.Fits x := by
  by_cases here : x = b
  · subst here
    exact new q (by simpa using listed)
  · exact h x q (by simpa [here] using listed)

theorem allocated_update (h : ∀ x special, allocated x = some special ↔ place x = .allocated special)
    (x : ℕ) (special : Bool) {a : Option Bool} (new : ∀ sp, a = some sp ↔ v = .allocated sp) :
    update allocated b a x = some special ↔ update place b v x = .allocated special := by
  by_cases here : x = b
  · subst here
    simpa using new special
  · simpa [here] using h x special

end Change

/-! ## What the moves of blocks leave alone -/

/-- The two states agree on everything that is not about single blocks. -/
structure State.SamePages (s s' : State) : Prop where
  sasThreadId : s'.sasThreadId = s.sasThreadId
  segmentThreadId : s'.segmentThreadId = s.segmentThreadId
  segmentUsed : s'.segmentUsed = s.segmentUsed
  blockSize : s'.blockSize = s.blockSize
  next : s'.next = s.next
  prev : s'.prev = s.prev
  first : s'.first = s.first
  queueBlockSize : s'.queueBlockSize = s.queueBlockSize
  registered : s'.registered = s.registered
  call : s'.call = s.call

theorem State.SamePages.refl (s : State) : s.SamePages s :=
  ⟨rfl, rfl, rfl, rfl, rfl, rfl, rfl, rfl, rfl, rfl⟩

theorem State.SamePages.after {s s' s'' : State} (h' : s'.SamePages s'') (h : s.SamePages s') :
    s.SamePages s'' :=
  ⟨h'.1.trans h.1, h'.2.trans h.2, h'.3.trans h.3, h'.4.trans h.4, h'.5.trans h.5, h'.6.trans h.6,
    h'.7.trans h.7, h'.8.trans h.8, h'.9.trans h.9, h'.10.trans h.10⟩

/-! ## The moves -/

namespace Blocks

variable {home : Homes} {place : ℕ → Place} {tail : ℕ} {s s' : State} {page t i b : ℕ}

theorem isPage (h : Blocks home place tail s) (listed : place b ≠ .outside) : IsPage (cxlPtrPage b) := by
  obtain ⟨t, i, -, -, inPage⟩ := (h.block b).1 listed
  exact inPage.isPage

theorem ne_zero (h : Blocks home place tail s) (listed : place b ≠ .outside) : b ≠ 0 := by
  obtain ⟨t, i, -, -, inPage⟩ := (h.block b).1 listed
  exact inPage.ne_zero

/-- The block at the head of `free` of a page. -/
theorem place_free (h : Blocks home place tail s) (some : s.free page ≠ 0) :
    place (s.free page) = .listed (.free page) ∧ cxlPtrPage (s.free page) = page := by
  have listed : (place (s.free page)).stack = Option.some (.free page) :=
    h.lists.place_head (q := Stack.free page) some
  rw [stack_eq_some] at listed
  exact ⟨listed, h.fits _ _ listed⟩

/-- The first free block of a page is handed out; it was not allocated. -/
theorem take {kind : Kind} (h : Blocks home place 0 s) (here : home page = some (t, i))
    (bin : Serves kind.special i) (run : s.blockTo kind page = some s') :
    s.allocated (s.free page) = none ∧ s.SamePages s' ∧
      Blocks home (update place (s.free page) (.allocated kind.special)) 0 s' := by
  by_cases none : s.free page = 0
  · simp [State.blockTo, none] at run
  obtain ⟨listed, page_eq⟩ := h.place_free none
  have inside : place (s.free page) ≠ .outside := by simp [listed]
  simp only [State.blockTo, page_eq, ite_self, if_neg none, Option.some.injEq] at run
  have fresh : s.allocated (s.free page) = Option.none := by
    rw [Option.eq_none_iff_forall_ne_some]
    intro special again
    rw [h.allocated, listed] at again
    cases again
  subst run
  refine ⟨fresh, ⟨rfl, rfl, rfl, rfl, rfl, rfl, rfl, rfl, rfl, rfl⟩, ?_⟩
  refine ⟨?_, block_update h.block inside (by simp), fits_update h.fits (by simp), ?_,
    fun x special => allocated_update h.allocated x special (by simp), ?_, h.normal⟩
  · have popped := h.lists.pop (q := Stack.free page) none
    rw [stack_update, stack_allocated]
    convert popped using 1
    · funext q
      cases q <;> simp [State.heads, update_apply]
    · rfl
  · have isPage := h.isPage inside
    have counted := used_gain (p := Place.Counted) (v := .allocated kind.special) h.used isPage
      (by rw [listed]; exact id) trivial
    rw [page_eq] at counted
    exact counted
  · intro x special u k allocated homed
    by_cases same : x = s.free page
    · subst same
      rw [page_eq, here] at homed
      obtain ⟨-, rfl⟩ := Prod.mk.inj (Option.some.inj homed)
      rw [update_self] at allocated
      injection allocated with special_eq
      rw [← special_eq]
      exact bin
    · rw [update_of_ne same] at allocated
      exact h.bin x special u k allocated homed

/-- All blocks of one list go to another one, which is empty. -/
theorem of_move {tail' : ℕ} (h : Blocks home place tail s) (q q' : Stack) (different : q ≠ q')
    (empty : s.heads tail q' = 0)
    (heads : s'.heads tail' = update (update (s.heads tail) q' (s.heads tail q)) q 0)
    (blockNext : s'.blockNext = s.blockNext) (used : s'.used = s.used)
    (allocated : s'.allocated = s.allocated) (normal : ∀ g, (s'.info g).state = .normal)
    (fits : ∀ b, q.Fits b → q'.Fits b)
    (counted : (Place.listed q).Counted ↔ (Place.listed q').Counted) :
    Blocks home (fun b => if (place b).stack = some q then .listed q' else place b) tail' s' := by
  refine ⟨?_, ?_, ?_, ?_, ?_, ?_, normal⟩
  · rw [heads, blockNext]
    convert h.lists.move different empty using 1
    funext b
    split <;> simp
  · intro b
    rw [← h.block b]
    split
    · next listed => simp [stack_eq_some.1 listed]
    · exact Iff.rfl
  · intro b r
    split
    · next listed =>
      rintro ⟨⟩
      exact fits b (h.fits b q (stack_eq_some.1 listed))
    · exact h.fits b r
  · intro page
    rw [used, h.used]
    refine countAt_congr fun b _ => ?_
    split
    · next listed => rw [stack_eq_some.1 listed, counted]
    · exact Iff.rfl
  · intro b special
    rw [allocated, h.allocated]
    split
    · next listed => simp [stack_eq_some.1 listed]
    · exact Iff.rfl
  · intro b special t i
    split
    · rintro ⟨⟩
    · exact h.bin b special t i

/-- The chain of a segment is detached from it. -/
theorem detach {g : ℕ} (h : Blocks home place 0 s) :
    ∃ place', Blocks home place' (s.info g).threadFree
      { s with info := update s.info g ⟨(s.info g).state, 0⟩ } := by
  refine ⟨_, h.of_move (.threadFree g) .detached (by simp) rfl ?_ rfl rfl
    rfl ?_ (fun _ _ => trivial) Iff.rfl⟩
  · funext q
    cases q with
    | threadFree g' =>
      by_cases same : g' = g
      · subst same
        simp [State.heads]
      · simp [State.heads, same]
    | free page => simp [State.heads]
    | localFree page => simp [State.heads]
    | detached => simp [State.heads]
  · intro g'
    by_cases same : g' = g
    · subst same
      simpa using h.normal g'
    · simpa [same] using h.normal g'

/-- The list `local_free` of a page becomes its list `free`. -/
theorem merge (h : Blocks home place 0 s) : ∃ place', Blocks home place' 0 (s.mergeLocalFree page) := by
  rw [State.mergeLocalFree]
  split
  · next both =>
    refine ⟨_, h.of_move (.localFree page) (.free page) (by simp) both.2 ?_ rfl
      rfl rfl h.normal (fun _ same => same) Iff.rfl⟩
    funext q
    cases q <;> simp [State.heads, update_apply]
  · exact ⟨place, h⟩

/-- The first block of the detached chain goes to the list `local_free` of its page. -/
theorem collect (h : Blocks home place tail s) (some : tail ≠ 0) :
    Blocks home (update place tail (.listed (.localFree (cxlPtrPage tail)))) (s.blockNext tail)
      { s with
        blockNext := update s.blockNext tail (s.localFree (cxlPtrPage tail))
        localFree := update s.localFree (cxlPtrPage tail) tail
        used := update s.used (cxlPtrPage tail) (dec32 (s.used (cxlPtrPage tail))) } := by
  have head : s.heads tail .detached ≠ 0 := some
  have listed : place tail = .listed .detached := stack_eq_some.1 (h.lists.place_head head)
  have inside : place tail ≠ .outside := by simp [listed]
  refine ⟨?_, block_update h.block inside (by simp), fits_update h.fits ?_, ?_, ?_, ?_, h.normal⟩
  · have pushed := (h.lists.pop head).push (x := tail) (q := Stack.localFree (cxlPtrPage tail)) some
      (update_self _ _ _)
    have same : s.heads tail .detached = tail := rfl
    rw [same, update_idem] at pushed
    rw [stack_update, stack_listed]
    convert pushed using 1
    · simp [State.heads]
    · funext q
      cases q <;> simp [State.heads, update_apply]
  · rintro q ⟨⟩
    exact rfl
  · exact used_lose h.used (h.isPage inside) (by rw [listed]; trivial) id
  · intro x special
    by_cases same : x = tail
    · subst same
      simp [h.allocated, listed]
    · rw [update_of_ne same]
      exact h.allocated x special
  · intro x special u k
    by_cases same : x = tail
    · subst same
      simp
    · rw [update_of_ne same]
      exact h.bin x special u k

/-- An allocated block goes to a list. -/
theorem of_push {q : Stack} {special : Bool} (h : Blocks home place 0 s)
    (old : place b = .allocated special) (fits : q.Fits b)
    (heads : s'.heads 0 = update (s.heads 0) q b)
    (blockNext : s'.blockNext = update s.blockNext b (s.heads 0 q))
    (allocated : s'.allocated = update s.allocated b none)
    (used : ∀ page, s'.used page =
      countAt cxlPtrPage page Place.Counted (update place b (.listed q)))
    (normal : ∀ g, (s'.info g).state = .normal) :
    Blocks home (update place b (.listed q)) 0 s' := by
  have inside : place b ≠ .outside := by simp [old]
  refine ⟨?_, block_update h.block inside (by simp), fits_update h.fits ?_, used, ?_, ?_, normal⟩
  · rw [heads, blockNext, stack_update, stack_listed]
    exact h.lists.push (h.ne_zero inside) (by simp [old])
  · rintro r ⟨⟩
    exact fits
  · intro x sp
    rw [allocated]
    exact allocated_update h.allocated x sp (by simp)
  · intro x sp u k
    by_cases same : x = b
    · subst same
      simp
    · rw [update_of_ne same]
      exact h.bin x sp u k

/-- The owner's free of a block. -/
theorem freeLocal {special : Bool} (h : Blocks home place 0 s)
    (old : place b = .allocated special) :
    Blocks home (update place b (.listed (.localFree (cxlPtrPage b)))) 0
      { s with
        allocated := update s.allocated b none
        blockNext := update s.blockNext b (s.localFree (cxlPtrPage b))
        localFree := update s.localFree (cxlPtrPage b) b
        used := update s.used (cxlPtrPage b) (dec32 (s.used (cxlPtrPage b))) } := by
  have inside : place b ≠ .outside := by simp [old]
  have fits : (Stack.localFree (cxlPtrPage b)).Fits b := rfl
  apply h.of_push old fits
  · funext q
    cases q <;> simp [State.heads, update_apply]
  · rfl
  · rfl
  · exact used_lose h.used (h.isPage inside) (by rw [old]; trivial) id
  · exact h.normal

/-- Another client's free of a block. -/
theorem freeRemote {special : Bool} {g : ℕ} (h : Blocks home place 0 s)
    (old : place b = .allocated special) (fits : segmentIndex b = g) :
    Blocks home (update place b (.listed (.threadFree g))) 0
      { s with
        allocated := update s.allocated b none
        blockNext := update s.blockNext b (s.info g).threadFree
        info := update s.info g ⟨(s.info g).state, b⟩ } := by
  apply h.of_push (q := Stack.threadFree g) old fits
  · funext q
    cases q with
    | threadFree g' =>
      by_cases same : g' = g
      · subst same
        simp [State.heads]
      · simp [State.heads, same]
    | free page => simp [State.heads]
    | localFree page => simp [State.heads]
    | detached => simp [State.heads]
  · rfl
  · rfl
  · exact used_keep h.used (by rw [old]; exact Iff.rfl)
  · intro g'
    by_cases same : g' = g
    · subst same
      simpa using h.normal g'
    · simpa [same] using h.normal g'

/-- A write into an allocated block. -/
theorem write {special : Bool} {m : ℕ → ℕ} (h : Blocks home place 0 s)
    (old : place b = .allocated special) (here : home (cxlPtrPage b) = some (t, i))
    (inside : ∀ a, m a ≠ s.blockNext a → b ≤ a ∧ a < b + initBlockSize i) :
    Blocks home place 0 { s with blockNext := m } := by
  refine ⟨?_, h.block, h.fits, h.used, h.allocated, h.bin, h.normal⟩
  apply h.lists.congr
  intro x q listed
  by_contra changed
  obtain ⟨from_b, to_b⟩ := inside x changed
  obtain ⟨t₁, i₁, home₁, -, inPage⟩ := (h.block b).1 (by simp [old])
  rw [here] at home₁
  obtain ⟨rfl, rfl⟩ := Prod.mk.inj (Option.some.inj home₁)
  rw [stack_eq_some] at listed
  obtain ⟨t₂, i₂, home₂, -, inPage'⟩ := (h.block x).1 (by simp [listed])
  rw [inPage.cxlPtrPage_eq from_b to_b] at home₂ inPage'
  rw [here] at home₂
  obtain ⟨rfl, rfl⟩ := Prod.mk.inj (Option.some.inj home₂)
  rw [inPage.eq_of_inside inPage' from_b to_b, old] at listed
  cases listed

/-! ## Collecting -/

theorem collectBlocks {n : ℕ} (h : Blocks home place tail s)
    (run : State.collectBlocks n tail s = some s') :
    s.SamePages s' ∧ ∃ place', Blocks home place' 0 s' := by
  induction n generalizing place tail s with
  | zero =>
    by_cases done : tail = 0
    · subst done
      simp only [State.collectBlocks, if_pos, Option.some.injEq] at run
      subst run
      exact ⟨.refl s, place, h⟩
    · simp [State.collectBlocks, done] at run
  | succ n ih =>
    by_cases done : tail = 0
    · simp [State.collectBlocks, done] at run
    · simp only [State.collectBlocks, if_neg done] at run
      obtain ⟨same, rest⟩ := ih (h.collect done) run
      exact ⟨same.after ⟨rfl, rfl, rfl, rfl, rfl, rfl, rfl, rfl, rfl, rfl⟩, rest⟩

theorem cxlPageFreeCollect {n : ℕ} (h : Blocks home place 0 s)
    (run : s.cxlPageFreeCollect page n = some s') :
    s.SamePages s' ∧ ∃ place', Blocks home place' 0 s' := by
  obtain ⟨s₁, collected, rfl⟩ := Option.map_eq_some_iff.1 run
  have thread : s.SamePages s₁ ∧ ∃ place', Blocks home place' 0 s₁ := by
    rw [State.cxlThreadFreeCollect] at collected
    split at collected
    · obtain rfl := Option.some.inj collected
      exact ⟨.refl s, place, h⟩
    · obtain ⟨place', detached⟩ := h.detach (g := segmentIndex page)
      obtain ⟨same, rest⟩ := detached.collectBlocks collected
      exact ⟨same.after ⟨rfl, rfl, rfl, rfl, rfl, rfl, rfl, rfl, rfl, rfl⟩, rest⟩
  obtain ⟨same, place', kept⟩ := thread
  have merged : s₁.SamePages (s₁.mergeLocalFree page) := by
    rw [State.mergeLocalFree]
    split
    · exact ⟨rfl, rfl, rfl, rfl, rfl, rfl, rfl, rfl, rfl, rfl⟩
    · exact .refl s₁
  exact ⟨merged.after same, kept.merge⟩

end Blocks

/-! ## A page is cut into blocks -/

/-- The offsets of `n` blocks from `block` on. -/
def blocksFrom (bs : ℕ) : ℕ → ℕ → List ℕ
  | 0, _ => []
  | n + 1, block => block :: blocksFrom bs n (block + bs)

theorem mem_blocksFrom {bs n block b : ℕ} :
    b ∈ blocksFrom bs n block ↔ ∃ j, j < n ∧ b = block + bs * j := by
  induction n generalizing block with
  | zero => simp [blocksFrom]
  | succ n ih =>
    rw [blocksFrom, List.mem_cons, ih]
    constructor
    · rintro (rfl | ⟨j, hj, rfl⟩)
      · exact ⟨0, by omega, by omega⟩
      · exact ⟨j + 1, by omega, by rw [Nat.mul_add]; omega⟩
    · rintro ⟨j, hj, rfl⟩
      cases j with
      | zero => exact .inl rfl
      | succ j => exact .inr ⟨j, by omega, by rw [Nat.mul_add]; omega⟩

section LinkBlocks

variable {bs header n block a : ℕ} {m : ℕ → ℕ}

/-- Only the bytes of the blocks are written; the header may reach into the next block. -/
theorem linkBlocks_of_outside (small : header ≤ 2 * bs) (pos : 0 < bs)
    (outside : a < block ∨ block + (n + 1) * bs ≤ a) :
    State.linkBlocks bs header n block m a = m a := by
  induction n generalizing block m with
  | zero => rfl
  | succ n ih =>
    rw [Nat.add_mul, Nat.add_mul, Nat.one_mul] at outside
    rw [Nat.add_mul, Nat.one_mul] at ih
    rw [State.linkBlocks, ih (by omega), update_of_ne (by omega), memset, if_neg (by omega)]

/-- The blocks form a chain from the first to the last one. -/
theorem chain_linkBlocks (small : header ≤ 2 * bs) (pos : 0 < bs) (start : 0 < block) :
    Chain (update (State.linkBlocks bs header n block m) (block + n * bs) 0) 0 block
      (blocksFrom bs (n + 1) block) := by
  induction n generalizing block m with
  | zero => simp [blocksFrom, State.linkBlocks, Nat.ne_of_gt start]
  | succ n ih =>
    have last : block + (n + 1) * bs = block + bs + n * bs := by
      rw [Nat.add_mul]
      omega
    refine ⟨rfl, Nat.ne_of_gt start, ?_⟩
    have link : update (State.linkBlocks bs header (n + 1) block m) (block + (n + 1) * bs) 0 block =
        block + bs := by
      rw [update_of_ne (by omega), State.linkBlocks, linkBlocks_of_outside small pos (.inl (by omega)),
        update_self]
    rw [link, last]
    exact ih (by omega)

end LinkBlocks

/-- The bytes of a block that `cxl_page_init` clears. -/
def headerBytes (i : ℕ) : ℕ := if i < 2 then 8 else sizeofCXLObj

/-- The blocks of 16 bytes in queue 2 are shorter than the header of an object. -/
theorem headerBytes_le {i : ℕ} (bin : i < cxlBinSize) : headerBytes i ≤ 2 * initBlockSize i := by
  rw [headerBytes, initBlockSize, sizeofCXLObj, sizeofMessageQueue]
  simp only [if_pos bin]
  by_cases special : i < 2
  · rw [if_pos special]
    split
    · omega
    · split <;> omega
  · rw [if_neg special, if_neg (by omega), if_neg (by omega)]
    omega

namespace Blocks

variable {home home' : Homes} {place : ℕ → Place} {s s' : State} {page t i : ℕ}

/-- Only the bins count. -/
theorem of_homes {tail : ℕ} (h : Blocks home place tail s)
    (same : ∀ x t i, i < cxlBinSize → (home' x = some (t, i) ↔ home x = some (t, i))) :
    Blocks home' place tail s := by
  have isBlock : ∀ b, IsBlock home' b ↔ IsBlock home b := by
    intro b
    constructor
    · rintro ⟨t, i, here, bin, inPage⟩
      exact ⟨t, i, (same _ t i bin).1 here, bin, inPage⟩
    · rintro ⟨t, i, here, bin, inPage⟩
      exact ⟨t, i, (same _ t i bin).2 here, bin, inPage⟩
  refine ⟨h.lists, fun b => (h.block b).trans (isBlock b).symm, h.fits, h.used, h.allocated, ?_,
    h.normal⟩
  intro b special t i old here
  obtain ⟨u, k, home_b, bin, -⟩ := (h.block b).1 (by simp [old])
  have here' := (same _ u k bin).2 home_b
  rw [here] at here'
  obtain ⟨rfl, rfl⟩ := Prod.mk.inj (Option.some.inj here')
  exact h.bin b special t i old home_b

/-- A page that is in no bin has no blocks, and its record says so. -/
theorem closed {tail : ℕ} (h : Blocks home place tail s)
    (closed : ∀ t i, home page = some (t, i) → cxlBinSize ≤ i) :
    s.free page = 0 ∧ s.localFree page = 0 ∧ s.used page = 0 ∧
      ∀ b, cxlPtrPage b = page → place b = .outside := by
  have none : ∀ b, cxlPtrPage b = page → place b = .outside := by
    intro b here
    by_contra inside
    obtain ⟨t, i, home_b, bin, -⟩ := (h.block b).1 inside
    rw [here] at home_b
    have := closed t i home_b
    omega
  refine ⟨?_, ?_, ?_, none⟩
  · apply (h.lists.head_eq_null (q := Stack.free page)).2
    intro b listed
    rw [stack_eq_some] at listed
    rw [none b (h.fits b _ listed)] at listed
    cases listed
  · apply (h.lists.head_eq_null (q := Stack.localFree page)).2
    intro b listed
    rw [stack_eq_some] at listed
    rw [none b (h.fits b _ listed)] at listed
    cases listed
  · rw [h.used]
    apply countAt_eq_zero
    intro b here counted
    rw [none b here] at counted
    exact counted

/-- `cxl_page_init` makes the free list of a page that goes to a bin. -/
theorem cxlPageInit (h : Blocks home place 0 s) (isPage : IsPage page)
    (closed : ∀ t i, home page = some (t, i) → cxlBinSize ≤ i) (bin : i < cxlBinSize) :
    ∃ place', Blocks (update home page (some (t, i))) place' 0
      (s.cxlPageInit (i < 2) page (initBlockSize i)) := by
  obtain ⟨free, localFree, used, none⟩ := h.closed closed
  have pos := initBlockSize_pos bin
  have fits := initBlockSize_le bin
  have header := headerBytes_le bin
  have size : pageSize = 65536 := rfl
  -- the blocks of the page
  obtain ⟨n, count⟩ : ∃ n, pageSize / initBlockSize i = n + 1 := by
    have some : 0 < pageSize / initBlockSize i := Nat.div_pos (by omega) pos
    exact ⟨pageSize / initBlockSize i - 1, by omega⟩
  have inPage : ∀ b, b ∈ blocksFrom (initBlockSize i) (n + 1) (cxlPageStart page) ↔
      InPage page i b := by
    intro b
    rw [mem_blocksFrom, ← count]
    exact ⟨fun at_index => ⟨isPage, at_index⟩, fun inPage => inPage.at_index⟩
  have home_in : ∀ b, InPage page i b → cxlPtrPage b = page := fun b inPage =>
    inPage.cxlPtrPage_eq le_rfl (by omega)
  have isBlock : ∀ b, IsBlock (update home page (some (t, i))) b ↔
      InPage page i b ∨ place b ≠ .outside := by
    intro b
    rw [h.block b]
    constructor
    · rintro ⟨u, k, here, bin_k, inside⟩
      by_cases same : cxlPtrPage b = page
      · rw [same, update_self] at here
        obtain ⟨rfl, rfl⟩ := Prod.mk.inj (Option.some.inj here)
        rw [same] at inside
        exact .inl inside
      · rw [update_of_ne same] at here
        exact .inr ⟨u, k, here, bin_k, inside⟩
    · rintro (inside | ⟨u, k, here, bin_k, inside⟩)
      · have same := home_in b inside
        exact ⟨t, i, by rw [same, update_self], bin, by rwa [same]⟩
      · have other : cxlPtrPage b ≠ page := by
          intro same
          rw [same] at here
          have := closed u k here
          omega
        exact ⟨u, k, by rwa [update_of_ne other], bin_k, inside⟩
  have fresh : ∀ b ∈ blocksFrom (initBlockSize i) (n + 1) (cxlPageStart page),
      place b = .outside := fun b mem => none b (home_in b ((inPage b).1 mem))
  have filled := h.lists.fill (q := Stack.free page) free
    (chain_linkBlocks (n := n) (m := s.blockNext) header pos isPage.cxlPageStart_pos)
    (fun b mem => by rw [fresh b mem]; rfl) ?_
  · refine ⟨fun b => if b ∈ blocksFrom (initBlockSize i) (n + 1) (cxlPageStart page) then
      .listed (.free page) else place b, ?_, ?_, ?_, ?_, ?_, ?_, h.normal⟩
    · convert filled using 1
      · show update (State.linkBlocks (initBlockSize i) _ (pageSize / initBlockSize i - 1) _ _) _
          (s.free page) = _
        rw [count, Nat.add_sub_cancel, free, headerBytes]
        simp
      · funext q
        cases q <;> simp [State.heads, State.cxlPageInit, update_apply]
        intro same
        rw [same, localFree]
      · funext b
        split <;> simp
    · intro b
      rw [isBlock b, ← inPage b]
      by_cases mem : b ∈ blocksFrom (initBlockSize i) (n + 1) (cxlPageStart page) <;> simp [mem]
    · intro b q
      split
      · next mem =>
        rintro ⟨⟩
        exact home_in b ((inPage b).1 mem)
      · exact h.fits b q
    · intro x
      have old : (s.cxlPageInit (i < 2) page (initBlockSize i)).used x = s.used x := by
        by_cases same : x = page
        · subst same
          simp [State.cxlPageInit, used]
        · simp [State.cxlPageInit, same]
      rw [old, h.used]
      refine countAt_congr fun b _ => ?_
      split
      · next mem => rw [fresh b mem]; exact Iff.rfl
      · exact Iff.rfl
    · intro b special
      show s.allocated b = some special ↔ _
      rw [h.allocated]
      split
      · next mem => simp [fresh b mem]
      · exact Iff.rfl
    · intro b special u k
      split
      · rintro ⟨⟩
      · intro old here
        have other : cxlPtrPage b ≠ page := by
          intro same
          rw [none b same] at old
          cases old
        rw [update_of_ne other] at here
        exact h.bin b special u k old here
  · intro b q listed
    rw [stack_eq_some] at listed
    have other : cxlPtrPage b ≠ page := by
      intro same
      rw [none b same] at listed
      cases listed
    -- the bytes that are written belong to the page
    have apart : b < cxlPageStart page ∨ cxlPageStart page + (n + 1) * initBlockSize i ≤ b := by
      by_contra inside
      have whole : (n + 1) * initBlockSize i ≤ pageSize := by
        rw [← count]
        exact Nat.div_mul_le_self _ _
      apply other
      have there : b = cxlPageStart page + (b - cxlPageStart page) := by omega
      rw [there]
      exact isPage.cxlPtrPage_add (by omega)
    have last : b ≠ cxlPageStart page + n * initBlockSize i := by
      rw [Nat.add_mul, Nat.one_mul] at apart
      omega
    rw [update_of_ne last, linkBlocks_of_outside header pos apart]

/-- Only what is about blocks matters. -/
theorem of_same {tail : ℕ} (h : Blocks home place tail s) (free : s'.free = s.free)
    (localFree : s'.localFree = s.localFree) (used : s'.used = s.used) (info : s'.info = s.info)
    (blockNext : s'.blockNext = s.blockNext) (allocated : s'.allocated = s.allocated) :
    Blocks home place tail s' := by
  refine ⟨?_, h.block, h.fits, ?_, ?_, h.bin, ?_⟩
  · have heads : s'.heads tail = s.heads tail := by
      funext q
      cases q <;> simp [State.heads, free, localFree, info]
    rw [heads, blockNext]
    exact h.lists
  · rw [used]
    exact h.used
  · rw [allocated]
    exact h.allocated
  · rw [info]
    exact h.normal

/-- A page none of whose blocks is counted is emptied. -/
theorem clearPage (h : Blocks home place 0 s) (unused : s.used page = 0) (isPage : IsPage page) :
    ∃ place', Blocks (update home page none) place' 0 (s.clearPage page) := by
  have own : ∀ b, cxlPtrPage b = page →
      place b = .outside ∨ place b = .listed (.free page) ∨ place b = .listed (.localFree page) := by
    intro b here
    have uncounted : ¬ (place b).Counted := by
      intro counted
      have some := countAt_pos (p := Place.Counted) (finite_page isPage) here counted
      rw [← h.used, unused] at some
      omega
    cases at_b : place b with
    | outside => exact .inl rfl
    | allocated special =>
      rw [at_b] at uncounted
      exact absurd trivial uncounted
    | listed q =>
      have fits := h.fits b q at_b
      cases q with
      | free page' => exact .inr (.inl (by rw [← here, show cxlPtrPage b = page' from fits]))
      | localFree page' => exact .inr (.inr (by rw [← here, show cxlPtrPage b = page' from fits]))
      | threadFree g =>
        rw [at_b] at uncounted
        exact absurd trivial uncounted
      | detached =>
        rw [at_b] at uncounted
        exact absurd trivial uncounted
  refine ⟨fun b => if cxlPtrPage b = page then .outside else place b, ?_, ?_, ?_, ?_, ?_, ?_,
    h.normal⟩
  · have cleared := (h.lists.clear (q := Stack.free page)).clear (q := Stack.localFree page)
    convert cleared using 1
    · rfl
    · funext q
      cases q <;> simp [State.heads, State.clearPage, update_apply]
    · funext b
      by_cases here : cxlPtrPage b = page
      · rw [if_pos here]
        rcases own b here with none | free | localFree
        · simp [none]
        · simp [free]
        · simp [localFree]
      · rw [if_neg here]
        have not_free : (place b).stack ≠ some (.free page) := by
          intro listed
          exact here (h.fits b _ (stack_eq_some.1 listed))
        have not_local : (place b).stack ≠ some (.localFree page) := by
          intro listed
          exact here (h.fits b _ (stack_eq_some.1 listed))
        simp only [if_neg not_free, if_neg not_local]
  · intro b
    by_cases here : cxlPtrPage b = page
    · rw [if_pos here]
      refine iff_of_false (fun absurd => absurd rfl) ?_
      rintro ⟨t, i, home_b, -⟩
      simp [here] at home_b
    · rw [if_neg here, h.block b, IsBlock, IsBlock, update_of_ne here]
  · intro b q
    split
    · rintro ⟨⟩
    · exact h.fits b q
  · intro x
    by_cases same : x = page
    · subst same
      rw [countAt_eq_zero]
      · simp [State.clearPage]
      · intro b here
        rw [if_pos here]
        exact id
    · have old : (s.clearPage page).used x = s.used x := by simp [State.clearPage, same]
      rw [old, h.used]
      refine countAt_congr fun b here => ?_
      rw [if_neg (by rw [here]; exact same)]
  · intro b special
    show s.allocated b = some special ↔ _
    rw [h.allocated]
    split
    · next here =>
      rcases own b here with old | old | old <;> simp [old]
    · exact Iff.rfl
  · intro b special u k
    split
    · rintro ⟨⟩
    · next here =>
      rw [update_of_ne here]
      exact h.bin b special u k

end Blocks

end CxlShm.Heap
