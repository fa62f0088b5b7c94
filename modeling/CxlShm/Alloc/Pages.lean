import CxlShm.Alloc.Blocks
import CxlShm.Lib.DoublyLinked

/-!
# The pages of the segments in use

Each page of a segment that a client has taken is in one queue of that client.  The moves of pages
keep this: a segment is taken, a free page is cut into blocks for a bin, a page without blocks goes
back to the free pages, and a segment without pages in bins is given back.
-/

namespace CxlShm.Heap

open Linked Counting Function

/-- In a bin, not among the free pages. -/
def InBin (home : Option (ℕ × ℕ)) : Prop := ∃ t i, home = some (t, i) ∧ i < cxlBinSize

/-- The queues of all clients are doubly linked lists of the pages that are at home there. -/
def State.Queues (s : State) (home : Homes) : Prop := Lists s.next s.prev 0 s.first home

/-- Every page of a taken segment is in one queue of the owner. -/
structure Pages (home : Homes) (s : State) : Prop where
  queues : s.Queues home
  owned : ∀ page t i, home page = some (t, i) →
    IsPage page ∧ s.sasThreadId (segmentIndex page) = t ∧ s.registered t = true ∧ i ≤ freePage
  full : ∀ g k, s.sasThreadId g ≠ 0 → 1 ≤ k → k < pagesPerSegment →
    ∃ i, home (metaPage (segmentAt g) k) = some (s.sasThreadId g, i)
  header : ∀ g, s.sasThreadId g ≠ 0 → s.segmentThreadId g = s.sasThreadId g
  segmentUsed : ∀ g, s.sasThreadId g ≠ 0 → s.segmentUsed g = countAt segmentIndex g InBin home
  blockSize : ∀ page t i, home page = some (t, i) → i < cxlBinSize →
    s.blockSize page = initBlockSize i
  queueBlockSize : ∀ t i, s.registered t = true → s.queueBlockSize (t, i) = initBlockSize i
  registered : ∀ t, s.registered t = true → 1 ≤ t ∧ t ≤ maxThread
  call : ∀ t kind page, s.call t = .find kind page →
    s.registered t = true ∧ kind.bytes ≤ 1024 ∧ (page = 0 ∨ home page = some (State.queueOf t kind))

/-! ## The bin of a kind of block -/

theorem Kind.size_eq {kind : Kind} (small : kind.bytes ≤ 1024) : kind.size = kind.bytes :=
  Nat.mod_eq_of_lt (by omega)

theorem cxlPageQueue_obj {size : ℕ} (pos : 1 ≤ size) (small : size ≤ 1024) :
    cxlPageQueue false size = (size - 1) / 16 + 2 := by
  have minus : (size + (2 ^ 64 - 1)) % 2 ^ 64 = size - 1 := by omega
  simp only [cxlPageQueue, Bool.false_eq_true, false_and, if_false, minus]

theorem cxlPageQueue_lt {kind : Kind} (small : kind.bytes ≤ 1024) :
    cxlPageQueue kind.special kind.size < cxlBinSize := by
  rw [Kind.size_eq small]
  cases kind with
  | rootRef => decide
  | msgQueue => decide
  | obj dataSize =>
    simp only [Kind.bytes, sizeofCXLObj] at small ⊢
    rw [Kind.special, cxlPageQueue_obj (by omega) small, cxlBinSize]
    omega

/-- The blocks of a bin for objects have room for the object. -/
theorem initBlockSize_obj {dataSize : ℕ} (small : dataSize + sizeofCXLObj ≤ 1024) :
    initBlockSize (cxlPageQueue false (dataSize + sizeofCXLObj)) =
      16 * ((dataSize + sizeofCXLObj - 1) / 16 + 1) := by
  simp only [sizeofCXLObj] at small ⊢
  have bin : (dataSize + 24 - 1) / 16 + 2 < cxlBinSize := by
    rw [cxlBinSize]
    omega
  rw [cxlPageQueue_obj (by omega) small, initBlockSize, if_neg (by omega), if_neg (by omega),
    if_pos bin]
  omega

/-- A page that a kind of block is allocated from is freed into the same bin. -/
theorem serves_queueOf {kind : Kind} (small : kind.bytes ≤ 1024) :
    Serves kind.special (cxlPageQueue kind.special kind.size) := by
  rw [Kind.size_eq small]
  cases kind with
  | rootRef => exact ⟨by decide, by decide⟩
  | msgQueue => exact ⟨by decide, by decide⟩
  | obj dataSize =>
    rw [Kind.special, Kind.bytes, Serves, initBlockSize_obj small]
    simp only [Kind.bytes, sizeofCXLObj] at small
    simp only [State.clearedBytes, sizeofCXLObj, if_true]
    rw [cxlPageQueue_obj (by omega) (by omega), cxlPageQueue_obj (by omega) (by omega)]
    omega

/-! ## Moves of pages between queues -/

/-- The two states differ in the queues only. -/
structure State.SameElse (s s' : State) : Prop where
  sasThreadId : s'.sasThreadId = s.sasThreadId
  info : s'.info = s.info
  segmentThreadId : s'.segmentThreadId = s.segmentThreadId
  segmentUsed : s'.segmentUsed = s.segmentUsed
  free : s'.free = s.free
  localFree : s'.localFree = s.localFree
  blockSize : s'.blockSize = s.blockSize
  used : s'.used = s.used
  blockNext : s'.blockNext = s.blockNext
  queueBlockSize : s'.queueBlockSize = s.queueBlockSize
  registered : s'.registered = s.registered
  call : s'.call = s.call
  allocated : s'.allocated = s.allocated

/-- The two states agree on who is registered and what the clients are doing. -/
structure State.SameCalls (s s' : State) : Prop where
  call : s.call = s'.call
  registered : s.registered = s'.registered
  queueBlockSize : s.queueBlockSize = s'.queueBlockSize

namespace State

variable {s s' s'' : State} {home : Homes} {q : ℕ × ℕ} {page g n : ℕ}

theorem SameElse.refl (s : State) : s.SameElse s :=
  ⟨rfl, rfl, rfl, rfl, rfl, rfl, rfl, rfl, rfl, rfl, rfl, rfl, rfl⟩

theorem SameElse.after (h' : s'.SameElse s'') (h : s.SameElse s') : s.SameElse s'' :=
  ⟨h'.1.trans h.1, h'.2.trans h.2, h'.3.trans h.3, h'.4.trans h.4, h'.5.trans h.5, h'.6.trans h.6,
    h'.7.trans h.7, h'.8.trans h.8, h'.9.trans h.9, h'.10.trans h.10, h'.11.trans h.11,
    h'.12.trans h.12, h'.13.trans h.13⟩

theorem sameElse_push (s : State) (q : ℕ × ℕ) (page : ℕ) :
    s.SameElse (s.cxlPageQueuePush q page) :=
  ⟨rfl, rfl, rfl, rfl, rfl, rfl, rfl, rfl, rfl, rfl, rfl, rfl, rfl⟩

theorem sameElse_remove (s : State) (q : ℕ × ℕ) (page : ℕ) :
    s.SameElse (s.cxlPageQueueRemove q page) :=
  ⟨rfl, rfl, rfl, rfl, rfl, rfl, rfl, rfl, rfl, rfl, rfl, rfl, rfl⟩

theorem sameElse_pushPages (n : ℕ) (s : State) : s.SameElse (pushPages q g n s) := by
  induction n generalizing s with
  | zero => exact .refl s
  | succ n ih => exact (ih _).after (s.sameElse_push q _)

theorem sameElse_removePages (n : ℕ) (s : State) : s.SameElse (removePages q g n s) := by
  induction n with
  | zero => exact .refl s
  | succ n ih => exact (sameElse_remove _ q _).after ih

theorem Queues.push (h : s.Queues home) (cell : page ≠ 0) (homeless : home page = none) :
    (s.cxlPageQueuePush q page).Queues (update home page (some q)) :=
  Lists.push h cell homeless

theorem Queues.remove (h : s.Queues home) (at_home : home page = some q) :
    (s.cxlPageQueueRemove q page).Queues (update home page none) :=
  Lists.remove h at_home

/-- The links of a page that is in no queue do not matter. -/
theorem Queues.congr (h : s.Queues home) (next : ∀ p q, home p = some q → s'.next p = s.next p)
    (prev : ∀ p q, home p = some q → s'.prev p = s.prev p) (first : s'.first = s.first) :
    s'.Queues home := by
  have same := Lists.congr h next prev
  rw [← first] at same
  exact same

/-- A page that is in no queue loses its links. -/
theorem Queues.forget (h : s.Queues home) (homeless : home page = none)
    (next : s'.next = update s.next page 0) (prev : s'.prev = update s.prev page 0)
    (first : s'.first = s.first) : s'.Queues home := by
  have other : ∀ p q, home p = some q → p ≠ page := by
    rintro p q here rfl
    rw [homeless] at here
    cases here
  refine h.congr (fun p q here => ?_) (fun p q here => ?_) first
  · rw [next, update_of_ne (other p q here)]
  · rw [prev, update_of_ne (other p q here)]

/-- All pages of a segment go to one queue. -/
theorem Queues.pushPages (h : s.Queues home) (few : n < pagesPerSegment)
    (homeless : ∀ k, 1 ≤ k → k ≤ n → home (metaPage (segmentAt g) k) = none) :
    ∃ home', (pushPages q g n s).Queues home' ∧
      (∀ k, 1 ≤ k → k ≤ n → home' (metaPage (segmentAt g) k) = some q) ∧
      ∀ p, (∀ k, 1 ≤ k → k ≤ n → p ≠ metaPage (segmentAt g) k) → home' p = home p := by
  induction n generalizing s home with
  | zero => exact ⟨home, h, fun k _ _ => by omega, fun _ _ => rfl⟩
  | succ n ih =>
    have apart : ∀ k, k ≤ n → metaPage (segmentAt g) k ≠ metaPage (segmentAt g) (n + 1) := by
      intro k hk same
      have := (metaPage_inj (by omega) few same).2
      omega
    have pushed := h.push (q := q) metaPage_ne_zero (homeless (n + 1) (by omega) le_rfl)
    obtain ⟨home', queues, moved, kept⟩ := ih pushed (by omega) (fun k from_one hk => by
      rw [update_of_ne (apart k hk)]
      exact homeless k from_one (by omega))
    refine ⟨home', queues, ?_, ?_⟩
    · intro k from_one hk
      by_cases last : k = n + 1
      · subst last
        rw [kept _ fun k _ hk => (apart k hk).symm, update_self]
      · exact moved k from_one (by omega)
    · intro p other
      rw [kept p fun k from_one hk => other k from_one (by omega),
        update_of_ne (other (n + 1) (by omega) le_rfl)]

/-- All pages of a segment leave the queue they are in, and the rest of the queue stays. -/
theorem Queues.removePages (h : s.Queues home) (few : n < pagesPerSegment)
    (at_home : ∀ k, 1 ≤ k → k ≤ n → home (metaPage (segmentAt g) k) = some q) :
    ∃ home', (State.removePages q g n s).Queues home' ∧
      (∀ k, 1 ≤ k → k ≤ n → home' (metaPage (segmentAt g) k) = none) ∧
      (∀ p, (∀ k, 1 ≤ k → k ≤ n → p ≠ metaPage (segmentAt g) k) → home' p = home p) ∧
      ∀ l, Dll s.next s.prev 0 (s.first q) l →
        Dll (State.removePages q g n s).next (State.removePages q g n s).prev 0
          ((State.removePages q g n s).first q) (l.filter fun p => home' p = some q) := by
  induction n with
  | zero =>
    refine ⟨home, h, fun k _ _ => by omega, fun _ _ => rfl, fun l dll => ?_⟩
    rw [List.filter_eq_self.2]
    · exact dll
    · intro p mem
      simpa using (Lists.mem_iff h dll.1).1 mem
  | succ n ih =>
    obtain ⟨home', queues, moved, kept, rest⟩ :=
      ih (by omega) fun k from_one hk => at_home k from_one (by omega)
    have apart : ∀ k, k ≤ n → metaPage (segmentAt g) k ≠ metaPage (segmentAt g) (n + 1) := by
      intro k hk same
      have := (metaPage_inj (by omega) few same).2
      omega
    have here : home' (metaPage (segmentAt g) (n + 1)) = some q := by
      rw [kept _ fun k _ hk => (apart k hk).symm]
      exact at_home (n + 1) (by omega) le_rfl
    refine ⟨update home' (metaPage (segmentAt g) (n + 1)) none, queues.remove here, ?_, ?_, ?_⟩
    · intro k from_one hk
      by_cases last : k = n + 1
      · rw [last, update_self]
      · rw [update_of_ne (apart k (by omega))]
        exact moved k from_one (by omega)
    · intro p other
      rw [update_of_ne (other (n + 1) (by omega) le_rfl)]
      exact kept p fun k from_one hk => other k from_one (by omega)
    · intro l dll
      have before := rest l dll
      have mem := (Lists.mem_iff queues before.1).2 here
      have after := before.remove_forget mem
      have start : ((State.removePages q g n s).cxlPageQueueRemove q
            (metaPage (segmentAt g) (n + 1))).first q =
          if metaPage (segmentAt g) (n + 1) = (State.removePages q g n s).first q then
            (State.removePages q g n s).next (metaPage (segmentAt g) (n + 1))
          else (State.removePages q g n s).first q := by
        simp only [cxlPageQueueRemove]
        split <;> simp
      rw [← start, before.1.nodup.erase_eq_filter, List.filter_filter] at after
      refine Eq.mp (congrArg _ (List.filter_congr fun p _ => ?_)) after
      by_cases same : p = metaPage (segmentAt g) (n + 1)
      · subst same
        simp
      · simp [same]

end State

theorem State.sasThreadId_cxlSegmentFree {s s' : State} {t g : ℕ}
    (run : s.cxlSegmentFree t g = some s') :
    s'.sasThreadId = update s.sasThreadId g 0 := by
  have same := State.sameElse_removePages (q := (t, freePage)) (g := g) (pagesPerSegment - 1) s
  obtain ⟨removed, removed_eq⟩ : ∃ removed, removed =
    State.removePages (t, freePage) g (pagesPerSegment - 1) s := ⟨_, rfl⟩
  rw [← removed_eq] at same
  rw [State.cxlSegmentFree, ← removed_eq] at run
  have sas : (removed.clearSegment g).sasThreadId = s.sasThreadId := same.sasThreadId
  simp only [sas] at run
  split at run
  · obtain rfl := Option.some.inj run
    rfl
  · cases run

/-! ## Counting the pages in bins -/

theorem finite_segment (g : ℕ) : {p | segmentIndex p = g}.Finite := by
  apply (Set.finite_Iio (67108864 * (g + 3))).subset
  intro p here
  have index : p / 67108864 - 2 = g := by rw [← segmentIndex_eq]; exact here
  show p < 67108864 * (g + 3)
  omega

theorem countAt_segment_small (home : Homes) (pages : ∀ p, InBin (home p) → IsPage p) (g : ℕ) :
    countAt segmentIndex g InBin home < 2 ^ 32 - 1 := by
  have image : {p | segmentIndex p = g ∧ InBin (home p)} ⊆
      (metaPage (segmentAt g)) '' ↑(Finset.range pagesPerSegment) := by
    rintro p ⟨rfl, bin⟩
    obtain ⟨k, -, hk, same⟩ := (pages p bin).eq_metaPage
    exact ⟨k, by simpa using hk, same.symm⟩
  have bound := Set.ncard_le_ncard image ((Finset.finite_toSet _).image _)
  have range := Set.ncard_image_le (f := metaPage (segmentAt g))
    (Finset.finite_toSet (Finset.range pagesPerSegment))
  rw [Set.ncard_coe_finset, Finset.card_range] at range
  have size : pagesPerSegment = 1024 := rfl
  rw [countAt_eq]
  omega

/-! ## The moves of pages -/

namespace Pages

variable {home : Homes} {place : ℕ → Place} {s s' : State} {page t i g : ℕ}

theorem isPage_of_inBin (h : Pages home s) (p : ℕ) (bin : InBin (home p)) : IsPage p := by
  obtain ⟨u, k, here, -⟩ := bin
  exact (h.owned p u k here).1

theorem of_samePages (h : Pages home s) (same : s.SamePages s') : Pages home s' := by
  obtain ⟨queues, owned, full, header, segmentUsed, blockSize, queueBlockSize, registered, call⟩ := h
  refine ⟨?_, ?_, ?_, ?_, ?_, ?_, ?_, ?_, ?_⟩
  · rw [State.Queues, same.next, same.prev, same.first]
    exact queues
  · rw [same.sasThreadId, same.registered]
    exact owned
  · rw [same.sasThreadId]
    exact full
  · rw [same.sasThreadId, same.segmentThreadId]
    exact header
  · rw [same.sasThreadId, same.segmentUsed]
    exact segmentUsed
  · rw [same.blockSize]
    exact blockSize
  · rw [same.registered, same.queueBlockSize]
    exact queueBlockSize
  · rw [same.registered]
    exact registered
  · rw [same.call, same.registered]
    exact call

theorem setCall {c : Call} (h : Pages home s)
    (permitted : ∀ kind page, c = .find kind page → s.registered t = true ∧ kind.bytes ≤ 1024 ∧
      (page = 0 ∨ home page = some (State.queueOf t kind))) : Pages home (s.setCall t c) := by
  refine ⟨h.queues, h.owned, h.full, h.header, h.segmentUsed, h.blockSize, h.queueBlockSize,
    h.registered, ?_⟩
  intro u kind page calling
  by_cases same : u = t
  · subst same
    exact permitted kind page (by simpa [State.setCall] using calling)
  · exact h.call u kind page (by simpa [State.setCall, same] using calling)

/-- A segment that nobody has taken has no page in any queue. -/
theorem unowned (h : Pages home s) (free : s.sasThreadId (segmentIndex page) = 0) :
    home page = none := by
  cases at_home : home page with
  | none => rfl
  | some q =>
    obtain ⟨-, owner, registered, -⟩ := h.owned page q.1 q.2 at_home
    have := (h.registered q.1 registered).1
    omega

/-- A segment without blocks has no blocks to collect. -/
theorem info_of_unowned (h : Pages home s) (blocks : Blocks home place 0 s)
    (free : s.sasThreadId g = 0) : s.info g = ⟨.normal, 0⟩ := by
  have chain : (s.info g).threadFree = 0 := by
    apply (blocks.lists.head_eq_null (q := Stack.threadFree g)).2
    intro b listed
    rw [stack_eq_some] at listed
    obtain ⟨u, k, home_b, bin, inPage⟩ := (blocks.block b).1 (by simp [listed])
    obtain ⟨x, inside, there⟩ := inPage.inside le_rfl (by have := initBlockSize_pos bin; omega)
    have index : segmentIndex (cxlPtrPage b) = g := by
      rw [← inPage.isPage.segmentIndex_add inside, ← there]
      exact blocks.fits b _ listed
    rw [h.unowned (by rw [index]; exact free)] at home_b
    cases home_b
  have state := blocks.normal g
  cases info : s.info g with
  | mk st tf =>
    rw [info] at chain state
    simp only at chain state
    rw [chain, state]

/-- `cxl_segment_alloc` gives all pages of a segment to the client's free pages. -/
theorem cxlSegmentAlloc {size : ℕ} (h : Pages home s) (blocks : Blocks home place 0 s)
    (registered : s.registered t = true) (run : s.cxlSegmentAlloc size t g = some s') :
    ∃ home', Pages home' s' ∧ Blocks home' place 0 s' ∧ s'.SameCalls s ∧
      s'.first (t, freePage) ≠ 0 ∧
      (∀ p u i, i < cxlBinSize → (home' p = some (u, i) ↔ home p = some (u, i))) ∧
      ∀ k, 1 ≤ k → k < pagesPerSegment → home' (metaPage (segmentAt g) k) = some (t, freePage) := by
  rw [State.cxlSegmentAlloc] at run
  split at run
  swap
  · cases run
  next free =>
  obtain ⟨-, free⟩ := free
  obtain ⟨from_one, few⟩ := h.registered t registered
  have id_fits : t % 2 ^ 16 = t := by
    simp only [maxThread] at few
    omega
  rw [← h.info_of_unowned blocks free, update_eq_self, id_fits] at run
  have homeless : ∀ k, 1 ≤ k → k ≤ pagesPerSegment - 1 →
      home (metaPage (segmentAt g) k) = none := by
    intro k _ hk
    have small : k < pagesPerSegment := by
      have : pagesPerSegment = 1024 := rfl
      omega
    exact h.unowned (by rw [segmentIndex_metaPage small]; exact free)
  obtain ⟨taken, taken_eq⟩ : ∃ taken, taken = { s with
    sasThreadId := update s.sasThreadId g t
    segmentThreadId := update s.segmentThreadId g t
    segmentUsed := update s.segmentUsed g 0 } := ⟨_, rfl⟩
  have queues : taken.Queues home := by
    subst taken_eq
    exact h.queues
  obtain ⟨home', queues', moved, kept⟩ :=
    queues.pushPages (q := (t, freePage)) (n := pagesPerSegment - 1) (by decide) homeless
  have same := State.sameElse_pushPages (q := (t, freePage)) (g := g) (pagesPerSegment - 1) taken
  have run' : State.pushPages (t, freePage) g (pagesPerSegment - 1) taken = s' := by
    subst taken_eq
    exact Option.some.inj run
  rw [run'] at queues' same
  -- what is at home where
  have elsewhere : ∀ p, segmentIndex p ≠ g → home' p = home p := by
    intro p other
    apply kept
    rintro k - hk rfl
    have small : k < pagesPerSegment := by
      have : pagesPerSegment = 1024 := rfl
      omega
    exact other (segmentIndex_metaPage small)
  have here : ∀ p, segmentIndex p = g →
      home' p = none ∨ home' p = some (t, freePage) ∧ IsPage p := by
    intro p inside
    by_cases record : ∃ k, 1 ≤ k ∧ k ≤ pagesPerSegment - 1 ∧ p = metaPage (segmentAt g) k
    · obtain ⟨k, from_one, hk, rfl⟩ := record
      exact .inr ⟨moved k from_one hk, g, k, from_one, Nat.lt_of_le_pred (by decide) hk, rfl⟩
    · left
      rw [kept p fun k from_one hk same => record ⟨k, from_one, hk, same⟩]
      exact h.unowned (by rw [inside]; exact free)
  have bins : ∀ p u i, i < cxlBinSize → (home' p = some (u, i) ↔ home p = some (u, i)) := by
    intro p u i bin
    by_cases inside : segmentIndex p = g
    · have outside : home p = none := h.unowned (by rw [inside]; exact free)
      rw [outside]
      rcases here p inside with none | ⟨free_page, -⟩
      · rw [none]
      · rw [free_page]
        simp only [Option.some.injEq, Prod.mk.injEq, reduceCtorEq, iff_false, not_and]
        rintro - rfl
        exact Nat.lt_irrefl _ bin
    · rw [elsewhere p inside]
  have call : s'.call = s.call := by
    rw [same.call, taken_eq]
  refine ⟨home', ⟨queues', ?_, ?_, ?_, ?_, ?_, ?_, ?_, ?_⟩, ?_, ⟨call, ?_, ?_⟩, ?_, bins,
    fun k from_one hk => moved k from_one (Nat.le_pred_of_lt hk)⟩
  · intro p u i at_home
    rw [same.sasThreadId, same.registered, taken_eq]
    by_cases inside : segmentIndex p = g
    · rcases here p inside with none | ⟨free_page, isPage⟩
      · rw [none] at at_home
        cases at_home
      · rw [free_page] at at_home
        obtain ⟨rfl, rfl⟩ := Prod.mk.inj (Option.some.inj at_home)
        exact ⟨isPage, by simp [inside], registered, le_rfl⟩
    · rw [elsewhere p inside] at at_home
      simpa [inside] using h.owned p u i at_home
  · intro g' k owned from_one hk
    rw [same.sasThreadId, taken_eq] at owned ⊢
    by_cases same_g : g' = g
    · subst same_g
      exact ⟨freePage, by simpa using moved k from_one (Nat.le_pred_of_lt hk)⟩
    · simp only [update_of_ne same_g] at owned ⊢
      rw [elsewhere _ (by rw [segmentIndex_metaPage hk]; exact same_g)]
      exact h.full g' k owned from_one hk
  · intro g' owned
    rw [same.sasThreadId, taken_eq] at owned
    rw [same.sasThreadId, same.segmentThreadId, taken_eq]
    by_cases same_g : g' = g
    · subst same_g
      simp
    · simp only [update_of_ne same_g] at owned ⊢
      exact h.header g' owned
  · intro g' owned
    rw [same.sasThreadId, taken_eq] at owned
    rw [same.segmentUsed, taken_eq]
    by_cases same_g : g' = g
    · subst same_g
      rw [countAt_eq_zero]
      · simp
      · rintro p inside ⟨u, i, at_home, bin⟩
        rw [bins p u i bin, h.unowned (by rw [inside]; exact free)] at at_home
        cases at_home
    · simp only [update_of_ne same_g] at owned ⊢
      rw [h.segmentUsed g' owned]
      refine countAt_congr fun p inside => ?_
      rw [elsewhere p (by rw [inside]; exact same_g)]
  · intro p u i at_home bin
    rw [same.blockSize, taken_eq]
    exact h.blockSize p u i ((bins p u i bin).1 at_home) bin
  · rw [same.registered, same.queueBlockSize, taken_eq]
    exact h.queueBlockSize
  · rw [same.registered, taken_eq]
    exact h.registered
  · intro u kind p calling
    rw [call] at calling
    rw [same.registered, taken_eq]
    obtain ⟨caller, small, cursor⟩ := h.call u kind p calling
    refine ⟨caller, small, cursor.imp_right fun at_home => ?_⟩
    exact (bins p u _ (cxlPageQueue_lt small)).2 at_home
  · refine (blocks.of_homes bins).of_same ?_ ?_ ?_ ?_ ?_ ?_
    · rw [same.free, taken_eq]
    · rw [same.localFree, taken_eq]
    · rw [same.used, taken_eq]
    · rw [same.info, taken_eq]
    · rw [same.blockNext, taken_eq]
    · rw [same.allocated, taken_eq]
  · rw [same.registered, taken_eq]
  · rw [same.queueBlockSize, taken_eq]
  · exact Lists.first_ne_null queues' (moved 1 le_rfl (by decide))

/-- A free page of the client is cut into blocks and goes to a bin. -/
theorem openPage (h : Pages home s) (blocks : Blocks home place 0 s) (page_eq : s.first (t, freePage) = page)
    (found : page ≠ 0) (bin : i < cxlBinSize)
    (run : ((s.takeFreePage t).1.cxlPageInit (i < 2) page (initBlockSize i)).cxlPageQueuePush (t, i)
      page = s') :
    Pages (update home page (some (t, i))) s' ∧
      ∃ place', Blocks (update home page (some (t, i))) place' 0 s' := by
  have at_home : home page = some (t, freePage) := by
    rw [← page_eq] at found ⊢
    exact Lists.home_first h.queues found
  obtain ⟨isPage, owner, registered, -⟩ := h.owned page t freePage at_home
  have closed : ∀ u k, home page = some (u, k) → cxlBinSize ≤ k := by
    intro u k here
    rw [at_home] at here
    obtain ⟨-, rfl⟩ := Prod.mk.inj (Option.some.inj here)
    exact le_rfl
  have taken : (s.takeFreePage t).1 =
      (s.cxlPageQueueRemove (t, freePage) page).incSegmentUsed (segmentIndex page) := by
    rw [← page_eq]
    rfl
  rw [taken] at run
  subst run
  refine ⟨⟨?_, ?_, ?_, h.header, ?_, ?_, h.queueBlockSize, h.registered, ?_⟩, ?_⟩
  · have removed := State.Queues.remove h.queues at_home
    have init : ((s.cxlPageQueueRemove (t, freePage) page).incSegmentUsed (segmentIndex page)
        |>.cxlPageInit (i < 2) page (initBlockSize i)).Queues (update home page none) := by
      exact removed.forget (update_self _ _ _) rfl rfl rfl
    have pushed := init.push (q := (t, i)) isPage.ne_zero (update_self _ _ _)
    rw [update_idem] at pushed
    exact pushed
  · intro p u k here
    by_cases same : p = page
    · subst same
      rw [update_self] at here
      obtain ⟨rfl, rfl⟩ := Prod.mk.inj (Option.some.inj here)
      exact ⟨isPage, owner, registered, Nat.le_of_lt bin⟩
    · rw [update_of_ne same] at here
      exact h.owned p u k here
  · intro g k owned from_one hk
    by_cases same : metaPage (segmentAt g) k = page
    · subst same
      rw [segmentIndex_metaPage hk] at owner
      exact ⟨i, by rw [update_self, ← owner]; rfl⟩
    · rw [update_of_ne same]
      exact h.full g k owned from_one hk
  · intro g owned
    show update s.segmentUsed (segmentIndex page) (inc32 (s.segmentUsed (segmentIndex page))) g = _
    by_cases same : g = segmentIndex page
    · subst same
      have gain := countAt_update_gain (p := InBin) (b := some (t, i)) (f := home)
        (finite_segment _) (rfl : segmentIndex page = segmentIndex page)
        (by
          rintro ⟨u, k, here, bin_k⟩
          have := closed u k here
          omega)
        ⟨t, i, rfl, bin⟩
      have small := countAt_segment_small home h.isPage_of_inBin (segmentIndex page)
      rw [update_self, h.segmentUsed _ owned, inc32_eq small, gain]
    · rw [update_of_ne same, countAt_update_of_ne (Ne.symm same)]
      exact h.segmentUsed g owned
  · intro p u k here bin_k
    show update s.blockSize page (initBlockSize i % 2 ^ 32) p = _
    by_cases same : p = page
    · subst same
      rw [update_self] at here ⊢
      obtain ⟨rfl, rfl⟩ := Prod.mk.inj (Option.some.inj here)
      have := initBlockSize_le bin
      exact Nat.mod_eq_of_lt (by omega)
    · rw [update_of_ne same] at here ⊢
      exact h.blockSize p u k here bin_k
  · intro u kind p calling
    obtain ⟨caller, small, cursor⟩ := h.call u kind p calling
    refine ⟨caller, small, cursor.imp_right fun here => ?_⟩
    rw [update_of_ne]
    · exact here
    · rintro rfl
      have := closed _ _ here
      have := cxlPageQueue_lt small
      omega
  · have same : Blocks home place 0
        ((s.cxlPageQueueRemove (t, freePage) page).incSegmentUsed (segmentIndex page)) :=
      blocks.of_same rfl rfl rfl rfl rfl rfl
    obtain ⟨place', init⟩ := same.cxlPageInit isPage closed (t := t) bin
    exact ⟨place', init.of_same rfl rfl rfl rfl rfl rfl⟩

/-- A page without counted blocks goes from its bin to the free pages of the client. -/
theorem closePage (h : Pages home s) (blocks : Blocks home place 0 s)
    (at_home : home page = some (t, i)) (bin : i < cxlBinSize) (unused : s.used page = 0)
    (idle : s.call t = .idle) :
    ∃ place', Pages (update home page (some (t, freePage)))
        ((((s.cxlPageQueueRemove (t, i) page).clearPage page).cxlPageQueuePush (t, freePage)
          page).decSegmentUsed (segmentIndex page)) ∧
      Blocks (update home page (some (t, freePage))) place' 0
        ((((s.cxlPageQueueRemove (t, i) page).clearPage page).cxlPageQueuePush (t, freePage)
          page).decSegmentUsed (segmentIndex page)) := by
  obtain ⟨isPage, owner, registered, -⟩ := h.owned page t i at_home
  have owned_here : s.sasThreadId (segmentIndex page) ≠ 0 := by
    rw [owner]
    have := (h.registered t registered).1
    omega
  have removed := State.Queues.remove h.queues at_home
  have cleared : ((s.cxlPageQueueRemove (t, i) page).clearPage page).Queues
      (update home page none) := by
    exact removed.forget (update_self _ _ _) rfl rfl rfl
  have pushed := cleared.push (q := (t, freePage)) isPage.ne_zero (update_self _ _ _)
  rw [update_idem] at pushed
  obtain ⟨place', emptied⟩ := Blocks.clearPage (s := s.cxlPageQueueRemove (t, i) page)
    (blocks.of_same rfl rfl rfl rfl rfl rfl) unused isPage
  have bins : ∀ p u k, k < cxlBinSize →
      (update home page (some (t, freePage)) p = some (u, k) ↔
        update home page none p = some (u, k)) := by
    intro p u k bin_k
    by_cases same : p = page
    · subst same
      simp only [update_self, Option.some.injEq, Prod.mk.injEq, reduceCtorEq, iff_false, not_and]
      rintro - rfl
      exact Nat.lt_irrefl _ bin_k
    · rw [update_of_ne same, update_of_ne same]
  refine ⟨place', ⟨pushed, ?_, ?_, h.header, ?_, ?_, h.queueBlockSize, h.registered, ?_⟩,
    (emptied.of_homes bins).of_same rfl rfl rfl rfl rfl rfl⟩
  · intro p u k here
    by_cases same : p = page
    · subst same
      rw [update_self] at here
      obtain ⟨rfl, rfl⟩ := Prod.mk.inj (Option.some.inj here)
      exact ⟨isPage, owner, registered, le_rfl⟩
    · rw [update_of_ne same] at here
      exact h.owned p u k here
  · intro g k owned from_one hk
    by_cases same : metaPage (segmentAt g) k = page
    · subst same
      rw [segmentIndex_metaPage hk] at owner
      exact ⟨freePage, by rw [update_self, ← owner]; rfl⟩
    · rw [update_of_ne same]
      exact h.full g k owned from_one hk
  · intro g owned
    show update s.segmentUsed (segmentIndex page) (dec32 (s.segmentUsed (segmentIndex page))) g = _
    by_cases same : g = segmentIndex page
    · subst same
      have old : InBin (home page) := ⟨t, i, at_home, bin⟩
      have lose := countAt_update_lose (p := InBin) (b := some (t, freePage)) (f := home)
        (finite_segment _) (rfl : segmentIndex page = segmentIndex page) old
        (by
          rintro ⟨u, k, here, bin_k⟩
          obtain ⟨-, rfl⟩ := Prod.mk.inj (Option.some.inj here)
          exact Nat.lt_irrefl _ bin_k)
      have counted := countAt_pos (p := InBin) (f := home) (finite_segment _)
        (rfl : segmentIndex page = segmentIndex page) old
      have small := countAt_segment_small home h.isPage_of_inBin (segmentIndex page)
      rw [update_self, h.segmentUsed _ owned, dec32_eq counted small]
      omega
    · rw [update_of_ne same, countAt_update_of_ne (Ne.symm same)]
      exact h.segmentUsed g owned
  · intro p u k here bin_k
    have here' := (bins p u k bin_k).1 here
    show update s.blockSize page 0 p = _
    by_cases same : p = page
    · subst same
      simp at here'
    · rw [update_of_ne same] at here' ⊢
      exact h.blockSize p u k here' bin_k
  · intro u kind p calling
    obtain ⟨caller, small, cursor⟩ := h.call u kind p calling
    refine ⟨caller, small, cursor.imp_right fun here => ?_⟩
    rw [update_of_ne]
    · exact here
    · rintro rfl
      rw [at_home] at here
      obtain ⟨rfl, -⟩ := Prod.mk.inj (Option.some.inj here)
      rw [show s.call t = .find kind p from calling] at idle
      cases idle

/-- `cxl_segment_free` of a segment without pages in bins takes its pages out of the free pages of
the client, and nothing else. -/
theorem cxlSegmentFree (h : Pages home s) (blocks : Blocks home place 0 s)
    (owner : s.sasThreadId g = t) (owned : t ≠ 0) (unused : s.segmentUsed g = 0)
    (run : s.cxlSegmentFree t g = some s') :
    ∃ home', Pages home' s' ∧ Blocks home' place 0 s' ∧
      ∀ l, Dll s.next s.prev 0 (s.first (t, freePage)) l →
        Dll s'.next s'.prev 0 (s'.first (t, freePage)) (l.filter fun p => segmentIndex p ≠ g) := by
  have taken : s.sasThreadId g ≠ 0 := by rwa [owner]
  have no_bin : ∀ p, segmentIndex p = g → ¬ InBin (home p) := by
    intro p inside bin
    have some := countAt_pos (p := InBin) (f := home) (finite_segment g) inside bin
    rw [← h.segmentUsed g taken, unused] at some
    exact Nat.lt_irrefl 0 some
  have at_home : ∀ k, 1 ≤ k → k ≤ pagesPerSegment - 1 →
      home (metaPage (segmentAt g) k) = some (t, freePage) := by
    intro k from_one hk
    have small : k < pagesPerSegment := Nat.lt_of_le_pred (by decide) hk
    obtain ⟨i, here⟩ := h.full g k taken from_one small
    obtain ⟨-, -, -, bound⟩ := h.owned _ _ _ here
    have not_bin : ¬ i < cxlBinSize := fun bin =>
      no_bin _ (segmentIndex_metaPage small) ⟨_, i, here, bin⟩
    have free_page : i = freePage := by
      simp only [freePage] at bound ⊢
      omega
    rw [here, owner, free_page]
  obtain ⟨home', queues, none, kept, rest⟩ :=
    h.queues.removePages (by decide) at_home
  have same := State.sameElse_removePages (q := (t, freePage)) (g := g) (pagesPerSegment - 1) s
  -- what is at home where
  have elsewhere : ∀ p, segmentIndex p ≠ g → home' p = home p := by
    intro p other
    apply kept
    rintro k - hk rfl
    exact other (segmentIndex_metaPage (Nat.lt_of_le_pred (by decide) hk))
  have here : ∀ p, segmentIndex p = g → home' p = Option.none := by
    intro p inside
    by_cases record : ∃ k, 1 ≤ k ∧ k ≤ pagesPerSegment - 1 ∧ p = metaPage (segmentAt g) k
    · obtain ⟨k, from_one, hk, rfl⟩ := record
      exact none k from_one hk
    · rw [kept p fun k from_one hk same => record ⟨k, from_one, hk, same⟩]
      cases homed : home p with
      | none => rfl
      | some q =>
        obtain ⟨isPage, -⟩ := h.owned p q.1 q.2 homed
        obtain ⟨k, from_one, hk, record'⟩ := isPage.eq_metaPage
        rw [inside] at record'
        exact absurd ⟨k, from_one, Nat.le_pred_of_lt hk, record'⟩ record
  have remaining : ∀ p q, home' p = some q → segmentIndex p ≠ g ∧ home p = some q := by
    intro p q homed
    have other : segmentIndex p ≠ g := by
      intro inside
      rw [here p inside] at homed
      cases homed
    exact ⟨other, by rw [← elsewhere p other]; exact homed⟩
  have bins : ∀ p u i, i < cxlBinSize → (home' p = some (u, i) ↔ home p = some (u, i)) := by
    intro p u i bin
    by_cases inside : segmentIndex p = g
    · exact iff_of_false (fun homed => (remaining p _ homed).1 inside) fun homed =>
        no_bin p inside ⟨u, i, homed, bin⟩
    · rw [elsewhere p inside]
  -- the records of the segment say nothing any more
  have in_segment : ∀ p, segmentAt g ≤ p → p < segmentAt g + sizeofSegment → segmentIndex p = g := by
    intro p low high
    have size : sizeofSegment = 49160 := rfl
    rw [segmentAt_eq] at low high
    rw [segmentIndex_eq]
    omega
  have zero : ∀ p, segmentAt g ≤ p → p < segmentAt g + sizeofSegment →
      s.free p = 0 ∧ s.localFree p = 0 ∧ s.used p = 0 := by
    intro p low high
    have no_block : ∀ u i, home p = some (u, i) → cxlBinSize ≤ i := by
      intro u i homed
      by_contra bin
      exact no_bin p (in_segment p low high) ⟨u, i, homed, Nat.lt_of_not_le bin⟩
    have closed := blocks.closed no_block
    exact ⟨closed.1, closed.2.1, closed.2.2.1⟩
  have memset_self : ∀ m : ℕ → ℕ, (∀ p, segmentAt g ≤ p → p < segmentAt g + sizeofSegment → m p = 0) →
      memset m (segmentAt g) sizeofSegment = m := by
    intro m clear
    funext p
    rw [memset]
    split
    · next range => exact (clear p range.1 range.2).symm
    · rfl
  have memset_other : ∀ (m : ℕ → ℕ) p q, home' p = some q →
      memset m (segmentAt g) sizeofSegment p = m p := by
    intro m p q homed
    rw [memset, if_neg]
    rintro ⟨low, high⟩
    exact (remaining p q homed).1 (in_segment p low high)
  obtain ⟨removed, removed_eq⟩ : ∃ removed, removed =
    State.removePages (t, freePage) g (pagesPerSegment - 1) s := ⟨_, rfl⟩
  rw [← removed_eq] at queues same rest
  have run' : s' = { removed.clearSegment g with
      sasThreadId := update s.sasThreadId g 0 } := by
    rw [State.cxlSegmentFree, ← removed_eq] at run
    have sas : (removed.clearSegment g).sasThreadId = s.sasThreadId := same.sasThreadId
    simp only [sas, owner, if_pos] at run
    exact (Option.some.inj run).symm
  subst run'
  refine ⟨home', ⟨?_, ?_, ?_, ?_, ?_, ?_, ?_, ?_, ?_⟩, ?_, ?_⟩
  · exact queues.congr (memset_other _) (memset_other _) rfl
  · intro p u i homed
    obtain ⟨other, homed⟩ := remaining p _ homed
    show IsPage p ∧ update s.sasThreadId g 0 (segmentIndex p) = u ∧ removed.registered u = true ∧ _
    rw [update_of_ne other, same.registered]
    exact h.owned p u i homed
  · intro g' k owned' from_one hk
    have other : g' ≠ g := by
      rintro rfl
      simp at owned'
    simp only [update_of_ne other] at owned' ⊢
    rw [elsewhere _ (by rw [segmentIndex_metaPage hk]; exact other)]
    exact h.full g' k owned' from_one hk
  · intro g' owned'
    have other : g' ≠ g := by
      rintro rfl
      simp at owned'
    simp only [update_of_ne other] at owned'
    show update removed.segmentThreadId g 0 g' = update s.sasThreadId g 0 g'
    rw [update_of_ne other, update_of_ne other, same.segmentThreadId]
    exact h.header g' owned'
  · intro g' owned'
    have other : g' ≠ g := by
      rintro rfl
      simp at owned'
    simp only [update_of_ne other] at owned'
    show update removed.segmentUsed g 0 g' = _
    rw [update_of_ne other, same.segmentUsed, h.segmentUsed g' owned']
    refine countAt_congr fun p inside => ?_
    rw [elsewhere p (by rw [inside]; exact other)]
  · intro p u i homed bin
    show memset removed.blockSize (segmentAt g) sizeofSegment p = _
    rw [memset_other _ p _ homed, same.blockSize]
    exact h.blockSize p u i (remaining p _ homed).2 bin
  · intro u i caller
    have caller' : s.registered u = true := by
      rw [← same.registered]
      exact caller
    show removed.queueBlockSize (u, i) = _
    rw [same.queueBlockSize]
    exact h.queueBlockSize u i caller'
  · intro u caller
    apply h.registered u
    rw [← same.registered]
    exact caller
  · intro u kind p calling
    have calling' : s.call u = .find kind p := by
      rw [← same.call]
      exact calling
    obtain ⟨caller, small, cursor⟩ := h.call u kind p calling'
    show removed.registered u = true ∧ _
    rw [same.registered]
    exact ⟨caller, small, cursor.imp_right (bins p u _ (cxlPageQueue_lt small)).2⟩
  · refine (blocks.of_homes bins).of_same ?_ ?_ ?_ same.info same.blockNext same.allocated
    · show memset removed.free _ _ = _
      rw [same.free]
      exact memset_self _ fun p low high => (zero p low high).1
    · show memset removed.localFree _ _ = _
      rw [same.localFree]
      exact memset_self _ fun p low high => (zero p low high).2.1
    · show memset removed.used _ _ = _
      rw [same.used]
      exact memset_self _ fun p low high => (zero p low high).2.2
  · intro l dll
    have after := rest l dll
    have filter : l.filter (fun p => home' p = some (t, freePage)) =
        l.filter fun p => segmentIndex p ≠ g := by
      refine List.filter_congr fun p mem => ?_
      have homed := (Lists.mem_iff h.queues dll.1).1 mem
      by_cases inside : segmentIndex p = g
      · simp [inside, here p inside]
      · simp [inside, elsewhere p inside, homed]
    rw [filter] at after
    have homed : ∀ p ∈ l.filter fun p => segmentIndex p ≠ g, home' p = some (t, freePage) := by
      intro p mem
      rw [← filter] at mem
      simpa using (List.mem_filter.1 mem).2
    exact after.congr (fun p mem => memset_other _ p _ (homed p mem))
      fun p mem => memset_other _ p _ (homed p mem)

/-- `cxl_page_fresh` brings a page into the bin it is asked for. -/
theorem cxlPageFresh {size : ℕ} (h : Pages home s) (blocks : Blocks home place 0 s)
    (registered : s.registered t = true) (bin : i < cxlBinSize)
    (run : s.cxlPageFresh size (t, i) g = some (s', page)) :
    ∃ home' place', Pages home' s' ∧ Blocks home' place' 0 s' ∧
      home' page = some (t, i) ∧ s'.SameCalls s ∧
      ∃ home₂, home' = update home₂ page (some (t, i)) ∧
        home₂ page = some (t, freePage) ∧
        (∀ p u i, i < cxlBinSize → (home₂ p = some (u, i) ↔ home p = some (u, i))) ∧
        (home₂ = home ∧ s'.sasThreadId = s.sasThreadId ∨
          s.first (t, freePage) = 0 ∧
          ∀ k, 1 ≤ k → k < pagesPerSegment → home₂ (metaPage (segmentAt g) k) = some (t, freePage)) := by
  obtain ⟨⟨s₁, page₁⟩, alloc, init⟩ := Option.bind_eq_some_iff.1 run
  -- a free page, from a new segment if there was none
  obtain ⟨s₂, home₂, pages, blocks', calls, found, taken, bins, origin⟩ : ∃ s₂ home₂, Pages home₂ s₂ ∧
      Blocks home₂ place 0 s₂ ∧ s₂.SameCalls s ∧ s₂.first (t, freePage) ≠ 0 ∧
      s₂.takeFreePage t = (s₁, page₁) ∧
      (∀ p u i, i < cxlBinSize → (home₂ p = some (u, i) ↔ home p = some (u, i))) ∧
      (home₂ = home ∧ s₂.sasThreadId = s.sasThreadId ∨
        s.first (t, freePage) = 0 ∧
        ∀ k, 1 ≤ k → k < pagesPerSegment →
          home₂ (metaPage (segmentAt g) k) = some (t, freePage)) := by
    rw [State.cxlSegmentPageAlloc] at alloc
    split at alloc
    · next none =>
      obtain ⟨s₂, segment, taken⟩ := Option.map_eq_some_iff.1 alloc
      obtain ⟨home₂, pages, blocks', calls, found, bins, free⟩ :=
        h.cxlSegmentAlloc blocks registered segment
      exact ⟨s₂, home₂, pages, blocks', calls, found, taken, bins, .inr ⟨none, free⟩⟩
    · next found =>
      exact ⟨s, home, h, blocks, ⟨rfl, rfl, rfl⟩, found, Option.some.inj alloc,
        fun _ _ _ _ => Iff.rfl, .inl ⟨rfl, rfl⟩⟩
  have state_eq : (s₂.takeFreePage t).1 = s₁ := by rw [taken]
  have size_eq : s₁.queueBlockSize (t, i) = initBlockSize i := by
    have registered₂ : s₂.registered t = true := by rw [calls.registered, registered]
    rw [← pages.queueBlockSize t i registered₂, ← state_eq]
    rfl
  have some : initBlockSize i ≠ 0 := Nat.ne_of_gt (initBlockSize_pos bin)
  simp only [size_eq, if_neg some, Option.some.injEq, Prod.mk.injEq] at init
  obtain ⟨init, rfl⟩ := init
  have page_eq : s₂.first (t, freePage) = page₁ := congrArg Prod.snd taken
  rw [← state_eq] at init
  rw [page_eq] at found
  obtain ⟨pages', place', blocks''⟩ :=
    pages.openPage blocks' page_eq found bin init
  have at_home : home₂ page₁ = Option.some (t, freePage) := by
    rw [← page_eq] at found ⊢
    exact Lists.home_first pages.queues found
  refine ⟨_, place', pages', blocks'', update_self _ _ _, ?_, home₂, rfl, at_home, bins, ?_⟩
  · subst init
    exact ⟨calls.call, calls.registered, calls.queueBlockSize⟩
  · subst init
    exact origin

/-- The free pages of the client after `closePage`. -/
theorem closePage_list {l : List ℕ} (h : Pages home s) (at_home : home page = some (t, i))
    (bin : i < cxlBinSize) (dll : Dll s.next s.prev 0 (s.first (t, freePage)) l) :
    let closed := (((s.cxlPageQueueRemove (t, i) page).clearPage page).cxlPageQueuePush (t, freePage)
      page).decSegmentUsed (segmentIndex page)
    Dll closed.next closed.prev 0 (closed.first (t, freePage)) (page :: l) := by
  intro closed
  obtain ⟨isPage, -⟩ := h.owned page t i at_home
  have other : (t, freePage) ≠ (t, i) := by
    rintro ⟨⟩
    exact Nat.lt_irrefl _ bin
  have out : page ∉ l := by
    intro mem
    rw [Lists.mem_iff h.queues dll.1, at_home] at mem
    exact other (Option.some.inj mem).symm
  have apart : ∀ p ∈ l, p ≠ page := by
    rintro p mem rfl
    exact out mem
  have removed := Lists.remove_other h.queues at_home other dll
  have cleared : Dll ((s.cxlPageQueueRemove (t, i) page).clearPage page).next
      ((s.cxlPageQueueRemove (t, i) page).clearPage page).prev 0
      ((s.cxlPageQueueRemove (t, i) page).first (t, freePage)) l := by
    apply removed.congr
    · intro p mem
      exact update_of_ne (apart p mem) _ _
    · intro p mem
      exact update_of_ne (apart p mem) _ _
  have pushed := cleared.push isPage.ne_zero out
  have first : closed.first (t, freePage) = page := update_self _ _ _
  rw [first]
  exact pushed

/-- `cxl_page_free`; if the segment goes back, the other free pages stay as they are. -/
theorem cxlPageFree (h : Pages home s) (blocks : Blocks home place 0 s)
    (at_home : home page = some (t, i)) (bin : i < cxlBinSize) (unused : s.used page = 0)
    (idle : s.call t = .idle) (run : s.cxlPageFree t page (t, i) = some s') :
    ∃ home' place', Pages home' s' ∧ Blocks home' place' 0 s' ∧
      (s'.sasThreadId = s.sasThreadId ∨
        s'.sasThreadId = update s.sasThreadId (segmentIndex page) 0 ∧
          ∀ l, Dll s.next s.prev 0 (s.first (t, freePage)) l →
            Dll s'.next s'.prev 0 (s'.first (t, freePage))
              (l.filter fun p => segmentIndex p ≠ segmentIndex page)) := by
  obtain ⟨-, owner, registered, -⟩ := h.owned page t i at_home
  obtain ⟨place', pages', blocks'⟩ := h.closePage blocks at_home bin unused idle
  simp only [State.cxlPageFree] at run
  split at run
  · next none =>
    have owned : t ≠ 0 := by
      have := (h.registered t registered).1
      omega
    obtain ⟨home'', pages'', blocks'', rest⟩ := pages'.cxlSegmentFree blocks' owner owned none run
    refine ⟨home'', place', pages'', blocks'', .inr ⟨?_, fun l dll => ?_⟩⟩
    · have sas := State.sasThreadId_cxlSegmentFree run
      exact sas
    · have filtered := rest _ (h.closePage_list at_home bin dll)
      rwa [List.filter_cons_of_neg (by simp)] at filtered
  · obtain rfl := Option.some.inj run
    exact ⟨_, place', pages', blocks', .inl rfl⟩

end Pages

end CxlShm.Heap
