import CxlShm.Alloc.RecoveryFree

/-!
# What a free does to the lists of the bins

`cxl_free` of an own block may take the page of the block out of its bin, and give the segment back
then.  The pages of each bin stay in the order that they are in, and the only one to go is that
page.
-/

namespace CxlShm.Heap

open Linked Counting Function

variable {s s' : State} {home : Homes} {place : ℕ → Place} {q r : ℕ × ℕ} {t u i k page g n b : ℕ}
  {l : List ℕ} {special : Bool}

/-- The pages of queue `r`, in order. -/
def State.Row (s : State) (r : ℕ × ℕ) (l : List ℕ) : Prop := Dll s.next s.prev 0 (s.first r) l

theorem State.Queues.exists_row (h : s.Queues home) (r : ℕ × ℕ) :
    ∃ l, s.Row r l ∧ ∀ p, p ∈ l ↔ home p = some r := h r

theorem State.Queues.mem_row (h : s.Queues home) (row : s.Row r l) (p : ℕ) :
    p ∈ l ↔ home p = some r :=
  Lists.mem_iff h row.1

/-- The other rows when a page is taken out of its queue. -/
theorem State.Queues.row_remove (h : s.Queues home) (at_home : home page = some q) (other : r ≠ q)
    (row : s.Row r l) : (s.cxlPageQueueRemove q page).Row r l :=
  Lists.remove_other h at_home other row

/-- The row of the page itself. -/
theorem State.Queues.row_remove_self (h : s.Queues home) (at_home : home page = some q)
    (row : s.Row q l) : (s.cxlPageQueueRemove q page).Row q (l.erase page) := by
  have after := row.remove_forget ((h.mem_row row page).2 at_home)
  have start : (s.cxlPageQueueRemove q page).first q =
      if page = s.first q then s.next page else s.first q := by
    simp only [State.cxlPageQueueRemove]
    split <;> simp
  rw [← start] at after
  exact after

/-- The other rows when a page goes to the front of a queue. -/
theorem State.Queues.row_push (h : s.Queues home) (homeless : home page = none) (other : r ≠ q)
    (row : s.Row r l) : (s.cxlPageQueuePush q page).Row r l := by
  have out : page ∉ l := by
    rw [h.mem_row row, homeless]
    exact nofun
  have apart : s.first q ≠ 0 → s.first q ∉ l := by
    intro some mem
    have here := (h.mem_row row _).1 mem
    rw [Lists.home_first h some] at here
    exact other (Option.some.inj here).symm
  have start : (s.cxlPageQueuePush q page).first r = s.first r := update_of_ne other _ _
  have pushed := row.push_apart out apart
  rw [← start] at pushed
  exact pushed

theorem State.Queues.row_removePages (h : s.Queues home) (few : n < pagesPerSegment)
    (at_home : ∀ k, 1 ≤ k → k ≤ n → home (metaPage (segmentAt g) k) = some q) (other : r ≠ q)
    (row : s.Row r l) : (State.removePages q g n s).Row r l := by
  induction n with
  | zero => exact row
  | succ n ih =>
    have before := ih (by omega) fun k from_one hk => at_home k from_one (by omega)
    obtain ⟨home', queues, -, kept, -⟩ :=
      h.removePages (n := n) (by omega) fun k from_one hk => at_home k from_one (by omega)
    refine queues.row_remove ?_ other before
    rw [kept, at_home (n + 1) (by omega) le_rfl]
    intro k _ hk same
    have := (metaPage_inj few (by omega) same).2
    omega

namespace Pages

/-- A segment that is given back has no page in a bin. -/
theorem segmentIndex_ne_of_bin (h : Pages home s) (owner : s.sasThreadId g ≠ 0)
    (unused : s.segmentUsed g = 0) (here : home page = some (t, i)) (bin : i < cxlBinSize) :
    segmentIndex page ≠ g := by
  intro inside
  have some := countAt_pos (p := InBin) (f := home) (finite_segment g) inside ⟨t, i, here, bin⟩
  rw [← h.segmentUsed g owner, unused] at some
  exact Nat.lt_irrefl 0 some

theorem row_cxlSegmentFree (h : Pages home s) (owner : s.sasThreadId g = t) (owned : t ≠ 0)
    (unused : s.segmentUsed g = 0) (run : s.cxlSegmentFree t g = some s') (bin : k < cxlBinSize)
    (row : s.Row (u, k) l) : s'.Row (u, k) l := by
  have taken : s.sasThreadId g ≠ 0 := by rwa [owner]
  have at_home : ∀ j, 1 ≤ j → j ≤ pagesPerSegment - 1 →
      home (metaPage (segmentAt g) j) = some (t, freePage) := by
    intro j from_one hj
    have small : j < pagesPerSegment := Nat.lt_of_le_pred (by decide) hj
    obtain ⟨i, here⟩ := h.full g j taken from_one small
    obtain ⟨-, -, -, bound⟩ := h.owned _ _ _ here
    have not_bin : ¬ i < cxlBinSize := fun bin =>
      h.segmentIndex_ne_of_bin taken unused here bin (segmentIndex_metaPage small)
    have free_page : i = freePage := by
      simp only [freePage] at bound ⊢
      omega
    rw [here, owner, free_page]
  have other : (u, k) ≠ (t, freePage) := by
    rintro ⟨⟩
    exact Nat.lt_irrefl _ bin
  have removed := h.queues.row_removePages (by decide) at_home other row
  have outside : ∀ m : ℕ → ℕ, ∀ p ∈ l, memset m (segmentAt g) sizeofSegment p = m p := by
    intro m p mem
    rw [memset, if_neg]
    rintro ⟨low, high⟩
    apply h.segmentIndex_ne_of_bin taken unused ((h.queues.mem_row row p).1 mem) bin
    have size : sizeofSegment = 49160 := rfl
    rw [segmentAt_eq] at low high
    rw [segmentIndex_eq]
    omega
  obtain ⟨after, after_eq⟩ : ∃ after, after =
    State.removePages (t, freePage) g (pagesPerSegment - 1) s := ⟨_, rfl⟩
  rw [← after_eq] at removed
  rw [State.cxlSegmentFree, ← after_eq] at run
  split at run
  · obtain rfl := Option.some.inj run
    exact removed.congr (outside _) (outside _)
  · cases run

/-- `cxl_page_free` takes the page out of its row. -/
theorem row_cxlPageFree (h : Pages home s) (blocks : Blocks home place 0 s)
    (at_home : home page = some (t, i)) (bin : i < cxlBinSize) (unused : s.used page = 0)
    (idle : s.call t = .idle) (run : s.cxlPageFree t page (t, i) = some s') (bin' : k < cxlBinSize)
    (row : s.Row (u, k) l) : s'.Row (u, k) (l.erase page) := by
  obtain ⟨isPage, owner, registered, -⟩ := h.owned page t i at_home
  have owned : t ≠ 0 := by
    have := (h.registered t registered).1
    omega
  have apart : ∀ p ∈ l.erase page, p ≠ page := fun p mem => (row.1.nodup.mem_erase_iff.1 mem).1
  have removed : (s.cxlPageQueueRemove (t, i) page).Row (u, k) (l.erase page) := by
    by_cases same : (u, k) = (t, i)
    · rw [same] at row ⊢
      exact h.queues.row_remove_self at_home row
    · have out : page ∉ l := by
        rw [h.queues.mem_row row, at_home]
        exact fun eq => same (Option.some.inj eq).symm
      rw [List.erase_of_not_mem out]
      exact h.queues.row_remove at_home same row
  have queues : ((s.cxlPageQueueRemove (t, i) page).clearPage page).Queues (update home page none) :=
    (h.queues.remove at_home).forget (update_self ..) rfl rfl rfl
  have cleared : ((s.cxlPageQueueRemove (t, i) page).clearPage page).Row (u, k) (l.erase page) :=
    removed.congr (fun p mem => update_of_ne (apart p mem) _ _)
      fun p mem => update_of_ne (apart p mem) _ _
  have other : (u, k) ≠ (t, freePage) := by
    rintro ⟨⟩
    exact Nat.lt_irrefl _ bin'
  have closed : ((((s.cxlPageQueueRemove (t, i) page).clearPage page).cxlPageQueuePush (t, freePage)
      page).decSegmentUsed (segmentIndex page)).Row (u, k) (l.erase page) :=
    queues.row_push (q := (t, freePage)) (update_self ..) other cleared
  obtain ⟨place', pages', -⟩ := h.closePage blocks at_home bin unused idle
  simp only [State.cxlPageFree] at run
  split at run
  · next none => exact pages'.row_cxlSegmentFree owner owned none run bin' closed
  · obtain rfl := Option.some.inj run
    exact closed

end Pages

/-- `cxl_free` of an own block: the page of the block goes from its row if it was the last one in
use. -/
theorem Inv.row_cxlFree (h : Inv s) (idle : s.call t = .idle) (live : s.allocated b = some special)
    (own : s.segmentThreadId (segmentIndex b) = t) (run : s.cxlFree t special b = some s')
    (bin : k < cxlBinSize) (row : s.Row (u, k) l) :
    s'.Row (u, k) (if s.used (cxlPtrPage b) = 1 then l.erase (cxlPtrPage b) else l) := by
  obtain ⟨home, place, pages, blocks⟩ := h
  obtain ⟨v, i, here, bin_i, inPage, serves, size_eq, owner, index⟩ :=
    Inv.page_of_allocated pages blocks live
  obtain rfl : v = t := owner.symm.trans own
  have old := (blocks.allocated b special).1 live
  have written := blocks.write old here
    (m := memset s.blockNext b (State.clearedBytes special (s.blockSize (cxlPtrPage b))))
    (by
      intro a changed
      have bound := serves.2
      rw [← size_eq] at bound
      rw [memset] at changed
      split at changed
      · next range => exact ⟨range.1, by rw [← size_eq]; omega⟩
      · exact absurd rfl changed)
  have freed := written.freeLocal old
  have pages' : Pages home (s.putLocal special b) :=
    pages.of_samePages ⟨rfl, rfl, rfl, rfl, rfl, rfl, rfl, rfl, rfl, rfl⟩
  have some : 0 < s.used (cxlPtrPage b) := by
    rw [blocks.used]
    exact countAt_pos (p := Place.Counted) (f := place) (finite_page inPage.isPage) rfl
      (by rw [old]; trivial)
  have small : s.used (cxlPtrPage b) < 2 ^ 32 - 1 := by
    rw [blocks.used]
    exact countAt_small inPage.isPage _ _
  have lower : (s.putLocal special b).used (cxlPtrPage b) = s.used (cxlPtrPage b) - 1 :=
    (update_self ..).trans (dec32_eq some small)
  rw [State.cxlFree_own own, lower] at run
  by_cases last : s.used (cxlPtrPage b) = 1
  · rw [if_pos (by omega)] at run
    rw [if_pos last]
    have queue : cxlPageQueue special (s.blockSize (cxlPtrPage b)) = i := by
      rw [size_eq, serves.1]
    rw [queue] at run
    exact pages'.row_cxlPageFree freed here bin_i (by rw [lower, last]) idle run bin row
  · rw [if_neg (by omega)] at run
    rw [if_neg last]
    obtain rfl := Option.some.inj run
    exact row

/-! ## The frees of one client -/

/-- `s` comes from `s₀` by frees of client `t`, which may have set states of segments in between. -/
structure Frees (t : ℕ) (s₀ s : State) : Prop where
  inv : Inv s.unmarked
  idle : s.call t = .idle
  leaking : ∀ g, (s.info g).state = .potentialLeaking → (s₀.info g).state = .potentialLeaking
  header : ∀ b special, s.allocated b = some special →
    s.segmentThreadId (segmentIndex b) = s₀.sasThreadId (segmentIndex b)

theorem Frees.refl (inv : Inv s.unmarked) (idle : s.call t = .idle) : Frees t s s where
  inv := inv
  idle := idle
  leaking _ leaking := leaking
  header b special live :=
    (Inv.header_of_allocated inv (show s.unmarked.allocated b = some special from live)).1

variable {s₀ : State}

/-- The state of a segment does not matter, unless it is `POTENTIAL_LEAKING`. -/
theorem Frees.mark {st : SegmentState} (h : Frees t s₀ s) (other : st ≠ .potentialLeaking) (g : ℕ) :
    Frees t s₀ { s with info := update s.info g ⟨st, (s.info g).threadFree⟩ } where
  inv := by
    have info : (fun x => (⟨.normal, (update s.info g ⟨st, (s.info g).threadFree⟩ x).threadFree⟩ :
        StateFreeInfo)) = s.unmarked.info := by
      funext x
      by_cases same : x = g
      · subst same
        simp [State.unmarked]
      · simp [same, State.unmarked]
    have same : State.unmarked { s with info := update s.info g ⟨st, (s.info g).threadFree⟩ } =
        s.unmarked := congrArg (fun i => { s with info := i }) info
    rw [same]
    exact h.inv
  idle := h.idle
  leaking x leaking := by
    by_cases same : x = g
    · subst same
      exact absurd ((congrArg StateFreeInfo.state (update_self ..)).symm.trans leaking) other
    · exact h.leaking x (by simpa [same] using leaking)
  header := h.header

/-- One more `cxl_free`: it ends, and the page of the block leaves its bin with its last block. -/
theorem Frees.free (h : Frees t s₀ s) (live : s.allocated b = some special)
    (normal : ∀ g, s₀.sasThreadId g ≠ t → (s₀.info g).state ≠ .potentialLeaking) :
    ∃ s', s.cxlFree t special b = some s' ∧ s'.allocated = update s.allocated b none ∧
      Frees t s₀ s' ∧
      s.cxlFreePush t b =
        (if s₀.sasThreadId (segmentIndex b) ≠ t then [(segmentIndex b, b)] else []) ∧
      ∀ k < cxlBinSize, ∀ l, s.Row (t, k) l → s'.Row (t, k)
        (if s₀.sasThreadId (segmentIndex b) = t ∧ s.used (cxlPtrPage b) = 1 then
          l.erase (cxlPtrPage b)
        else l) := by
  have header := h.header b special live
  by_cases own : s₀.sasThreadId (segmentIndex b) = t
  · rw [own] at header
    obtain ⟨after, unmarked⟩ := h.inv.exists_cxlFree_own (b := b) live header
    rw [State.unmarked_cxlFree_own header] at unmarked
    obtain ⟨s', run, rfl⟩ := Option.map_eq_some_iff.1 unmarked
    have run' : s.unmarked.cxlFree t special b = some s'.unmarked := by
      rw [State.unmarked_cxlFree_own header, run, Option.map_some]
    obtain ⟨info, allocated, call, -⟩ := State.own_cxlFree header run
    obtain ⟨inv', -⟩ := h.inv.cxlFree (b := b) h.idle live run'
    refine ⟨s', run, allocated, ⟨inv', ?idle, ?leaking, ?header⟩, ?push, ?row⟩
    case idle => exact (congrFun call t).trans h.idle
    case leaking =>
      rw [info]
      exact h.leaking
    case header =>
      intro x sp other
      have before : s.allocated x = some sp := by
        rw [allocated] at other
        by_cases same : x = b
        · subst same
          simp at other
        · rwa [update_of_ne same] at other
      have taken := (inv'.header_of_allocated (b := x) other).1
      have same := h.inv.sasThreadId_of_cxlFree (b := b) h.idle live run' (x := x) other
      rw [show s'.segmentThreadId (segmentIndex x) = _ from taken, same, ← h.header x sp before]
      exact (h.inv.header_of_allocated (b := x) before).1.symm
    case push =>
      rw [State.cxlFreePush, if_pos header, if_neg (not_not.2 own)]
    case row =>
      intro k bin l row
      have after := h.inv.row_cxlFree (b := b) h.idle live header run' bin row
      simp only [own, true_and]
      exact after
  · have foreign : s.segmentThreadId (segmentIndex b) ≠ t := by rwa [header]
    have not_leaking : (s.info (segmentIndex b)).state ≠ .potentialLeaking := fun leaking =>
      normal _ own (h.leaking _ leaking)
    have pushed : s.recoveryCxlFree t special b = { s with
        blockNext := update (memset s.blockNext b (State.clearedBytes special
          (s.blockSize (cxlPtrPage b)))) b (s.info (segmentIndex b)).threadFree
        allocated := update s.allocated b none
        info := update s.info (segmentIndex b) ⟨(s.info (segmentIndex b)).state, b⟩ } := by
      simp only [State.recoveryCxlFree]
      exact if_pos foreign
    have run' : s.unmarked.cxlFree t special b = some (s.recoveryCxlFree t special b).unmarked := by
      rw [State.unmarked_recoveryCxlFree]
      exact State.foreign_cxlFree (s := s.unmarked) foreign (by simp [State.unmarked])
    obtain ⟨inv', -⟩ := h.inv.cxlFree (b := b) h.idle live run'
    refine ⟨_, State.foreign_cxlFree foreign not_leaking, by rw [pushed],
      ⟨inv', ?idle, ?leaking, ?header⟩, ?push, ?row⟩
    case idle =>
      rw [pushed]
      exact h.idle
    case leaking =>
      intro g leaking
      rw [pushed] at leaking
      by_cases same : g = segmentIndex b
      · subst same
        simp only [update_self] at leaking
        exact h.leaking _ leaking
      · simp only [update_of_ne same] at leaking
        exact h.leaking g leaking
    case header =>
      intro x sp other
      rw [pushed] at other ⊢
      by_cases same : x = b
      · subst same
        simp at other
      · exact h.header x sp (by simpa [same] using other)
    case push =>
      rw [State.cxlFreePush, if_neg foreign, if_neg not_leaking, if_pos own]
    case row =>
      intro k bin l row
      rw [pushed, if_neg fun both => own both.1]
      exact row

/-- A page of a bin. -/
theorem Inv.page_of_row (h : Inv s) (row : s.Row (t, k) l) (bin : k < cxlBinSize) (mem : page ∈ l) :
    IsPage page ∧ s.blockSize page = initBlockSize k ∧ s.sasThreadId (segmentIndex page) = t := by
  obtain ⟨home, place, pages, -⟩ := h
  have here : home page = some (t, k) := (pages.queues.mem_row row _).1 mem
  obtain ⟨isPage, owner, -⟩ := pages.owned page t k here
  exact ⟨isPage, pages.blockSize page t k here bin, owner⟩

/-- An object does not lie in a page of `RootRef`s. -/
theorem Inv.notMem_row (h : Inv s) (live : s.allocated b = some false) (row : s.Row (t, 0) l) :
    cxlPtrPage b ∉ l := by
  obtain ⟨home, place, pages, blocks⟩ := h
  intro inside
  have here : home (cxlPtrPage b) = some (t, 0) := (pages.queues.mem_row row _).1 inside
  have old := (blocks.allocated b false).1 live
  exact absurd (blocks.bin b false t 0 old here).1 (by decide)

/-- If `used` is 1 there is one block that is allocated. -/
theorem Inv.allocated_of_used (h : Inv s) (live : s.allocated b = some special)
    (last : s.used (cxlPtrPage b) = 1) {x : ℕ} {sp : Bool} (other : s.allocated x = some sp)
    (same : cxlPtrPage x = cxlPtrPage b) : x = b := by
  obtain ⟨home, place, pages, blocks⟩ := h
  obtain ⟨u, i, -, -, inPage, -⟩ := Inv.page_of_allocated pages blocks live
  rw [blocks.used] at last
  have one := Set.ncard_eq_one.1 last
  obtain ⟨y, only⟩ := one
  have counted (z : ℕ) (sp : Bool) (hz : s.allocated z = some sp)
      (at_page : cxlPtrPage z = cxlPtrPage b) : z = y := by
    have inside : z ∈ {a | cxlPtrPage a = cxlPtrPage b ∧ Place.Counted (place a)} := by
      refine ⟨at_page, ?_⟩
      rw [(blocks.allocated z sp).1 hz]
      trivial
    rw [only] at inside
    exact inside
  exact (counted x sp other same).trans (counted b special live rfl).symm

end CxlShm.Heap
