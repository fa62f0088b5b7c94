import CxlShm.Alloc.Ownership

/-!
# Freeing for a dead client

`monitor::recovery_cxl_free` frees a block under the id of a client that has stopped.  A block of
another client's segment goes to the chain of the segment, as in `cxl_free`, but without a look at
the state of the segment; a block of the client's own segments is only cleared, and waits there for
the monitor to take the segment.
-/

namespace CxlShm.Heap

open Function

namespace State

variable (s : State)

/-- `monitor::recovery_cxl_free` for the slot of client `t` -/
def recoveryCxlFree (t : ℕ) (special : Bool) (b : ℕ) : State :=
  let page := cxlPtrPage b
  let g := segmentIndex b
  let s := { s with
    blockNext := memset s.blockNext b (clearedBytes special (s.blockSize page))
    allocated := update s.allocated b none }
  if s.segmentThreadId g ≠ t then
    { s with
      blockNext := update s.blockNext b (s.info g).threadFree
      info := update s.info g ⟨(s.info g).state, b⟩ }
  else s

/-- The segment on whose chain `cxl_free` by client `t` pushes the block, with the block. -/
def cxlFreePush (t b : ℕ) : List (ℕ × ℕ) :=
  let g := segmentIndex b
  if s.segmentThreadId g = t then []
  else if (s.info g).state = .potentialLeaking then []
  else [(g, b)]

/-- The segment on whose chain `recovery_cxl_free` pushes the block, with the block. -/
def recoveryCxlFreePush (t b : ℕ) : List (ℕ × ℕ) :=
  let g := segmentIndex b
  if s.segmentThreadId g ≠ t then [(g, b)] else []

/-- The block is cleared and put on the list `local_free` of its page. -/
def putLocal (special : Bool) (b : ℕ) : State :=
  let page := cxlPtrPage b
  { s with
    allocated := update s.allocated b none
    blockNext := update (memset s.blockNext b (clearedBytes special (s.blockSize page))) b
      (s.localFree page)
    localFree := update s.localFree page b
    used := update s.used page (dec32 (s.used page)) }

/-- The memory without the states of the segments. -/
def unmarked : State := { s with info := fun g => ⟨.normal, (s.info g).threadFree⟩ }

end State

/-! ## What `cxl_free` of an own block leaves alone -/

section Frame

namespace State

variable {s s' : State} {t page b g n : ℕ} {q : ℕ × ℕ} {special : Bool}

/-- The two states agree on the chains, the blocks and the calls. -/
structure SameBlocks (s s' : State) : Prop where
  info : s'.info = s.info
  blockNext : s'.blockNext = s.blockNext
  allocated : s'.allocated = s.allocated
  call : s'.call = s.call

theorem sameBlocks_cxlSegmentFree (run : s.cxlSegmentFree t g = some s') : s.SameBlocks s' := by
  have same := sameElse_removePages (q := (t, freePage)) (g := g) (pagesPerSegment - 1) s
  obtain ⟨removed, removed_eq⟩ : ∃ removed, removed =
    removePages (t, freePage) g (pagesPerSegment - 1) s := ⟨_, rfl⟩
  rw [← removed_eq] at same
  rw [cxlSegmentFree, ← removed_eq] at run
  split at run
  · obtain rfl := Option.some.inj run
    exact ⟨same.info, same.blockNext, same.allocated, same.call⟩
  · cases run

theorem sameBlocks_cxlPageFree (run : s.cxlPageFree t page q = some s') : s.SameBlocks s' := by
  simp only [cxlPageFree] at run
  split at run
  · have same := sameBlocks_cxlSegmentFree run
    exact ⟨same.info, same.blockNext, same.allocated, same.call⟩
  · obtain rfl := Option.some.inj run
    exact ⟨rfl, rfl, rfl, rfl⟩

theorem cxlFree_own (own : s.segmentThreadId (segmentIndex b) = t) :
    s.cxlFree t special b =
      if (s.putLocal special b).used (cxlPtrPage b) = 0 then
        (s.putLocal special b).cxlPageFree t (cxlPtrPage b)
          (t, cxlPageQueue special (s.blockSize (cxlPtrPage b)))
      else some (s.putLocal special b) := by
  simp only [cxlFree, if_pos own]
  rfl

/-- What a free of an own block writes into blocks is the block itself. -/
theorem own_cxlFree (own : s.segmentThreadId (segmentIndex b) = t)
    (run : s.cxlFree t special b = some s') :
    s'.info = s.info ∧ s'.allocated = update s.allocated b none ∧ s'.call = s.call ∧
      ∀ a, a ≠ b → s'.blockNext a =
        memset s.blockNext b (clearedBytes special (s.blockSize (cxlPtrPage b))) a := by
  rw [cxlFree_own own] at run
  split at run
  · have same := sameBlocks_cxlPageFree run
    refine ⟨same.info, same.allocated, same.call, fun a other => ?_⟩
    rw [same.blockNext]
    exact update_of_ne other _ _
  · obtain rfl := Option.some.inj run
    exact ⟨rfl, rfl, rfl, fun a other => update_of_ne other _ _⟩

/-- A free of a block of another client's segment is a push on its chain. -/
theorem foreign_cxlFree (foreign : s.segmentThreadId (segmentIndex b) ≠ t)
    (normal : (s.info (segmentIndex b)).state ≠ .potentialLeaking) :
    s.cxlFree t special b = some (s.recoveryCxlFree t special b) := by
  simp only [cxlFree, recoveryCxlFree, if_neg foreign, if_neg normal, if_pos foreign]

end State

end Frame

/-! ## The states of the segments do not matter -/

section Unmarked

namespace State

variable {s s' : State} {t page b g n : ℕ} {q : ℕ × ℕ} {special : Bool}

theorem unmarked_removePages (n : ℕ) (s : State) :
    (removePages q g n s).unmarked = removePages q g n s.unmarked := by
  induction n with
  | zero => rfl
  | succ n ih =>
    rw [removePages, removePages, ← ih]
    rfl

theorem unmarked_cxlSegmentFree :
    s.unmarked.cxlSegmentFree t g = (s.cxlSegmentFree t g).map unmarked := by
  have same := unmarked_removePages (q := (t, freePage)) (g := g) (pagesPerSegment - 1) s
  obtain ⟨removed, removed_eq⟩ : ∃ removed, removed =
    removePages (t, freePage) g (pagesPerSegment - 1) s := ⟨_, rfl⟩
  rw [← removed_eq] at same
  rw [cxlSegmentFree, cxlSegmentFree, ← removed_eq, ← same]
  clear removed_eq same
  by_cases own : (removed.clearSegment g).sasThreadId g = t
  · simp only [if_pos own, Option.map_some]
    exact if_pos own
  · simp only [if_neg own, Option.map_none]
    exact if_neg own

theorem unmarked_cxlPageFree :
    s.unmarked.cxlPageFree t page q = (s.cxlPageFree t page q).map unmarked := by
  have closed : (((s.unmarked.cxlPageQueueRemove q page).clearPage page).cxlPageQueuePush
      (t, freePage) page).decSegmentUsed (segmentIndex page) =
      ((((s.cxlPageQueueRemove q page).clearPage page).cxlPageQueuePush
        (t, freePage) page).decSegmentUsed (segmentIndex page)).unmarked := rfl
  simp only [cxlPageFree, closed]
  generalize (((s.cxlPageQueueRemove q page).clearPage page).cxlPageQueuePush
    (t, freePage) page).decSegmentUsed (segmentIndex page) = s'
  by_cases unused : s'.segmentUsed (segmentIndex page) = 0
  · rw [if_pos unused]
    exact (if_pos unused).trans unmarked_cxlSegmentFree
  · rw [if_neg unused]
    exact if_neg unused

/-- An own block is freed without a look at the states of the segments. -/
theorem unmarked_cxlFree_own (own : s.segmentThreadId (segmentIndex b) = t) :
    s.unmarked.cxlFree t special b = (s.cxlFree t special b).map unmarked := by
  have own' : s.unmarked.segmentThreadId (segmentIndex b) = t := own
  have put : s.unmarked.putLocal special b = (s.putLocal special b).unmarked := rfl
  rw [cxlFree_own own, cxlFree_own own', put]
  by_cases unused : (s.putLocal special b).used (cxlPtrPage b) = 0
  · rw [if_pos unused]
    exact (if_pos unused).trans unmarked_cxlPageFree
  · rw [if_neg unused]
    exact if_neg unused

/-- Nor does a push look at anything but the chain, in the memory without the states. -/
theorem unmarked_recoveryCxlFree :
    (s.recoveryCxlFree t special b).unmarked = s.unmarked.recoveryCxlFree t special b := by
  simp only [recoveryCxlFree]
  by_cases own : s.segmentThreadId (segmentIndex b) = t
  · have own' : s.unmarked.segmentThreadId (segmentIndex b) = t := own
    rw [if_neg (not_not.2 own), if_neg (not_not.2 own')]
    rfl
  · have own' : s.unmarked.segmentThreadId (segmentIndex b) ≠ t := own
    rw [if_pos own, if_pos own']
    have info : (fun g => (⟨.normal, (update s.info (segmentIndex b)
        ⟨(s.info (segmentIndex b)).state, b⟩ g).threadFree⟩ : StateFreeInfo)) =
        update s.unmarked.info (segmentIndex b) ⟨.normal, b⟩ := by
      funext g
      by_cases same : g = segmentIndex b
      · subst same
        simp
      · simp [same, unmarked]
    exact congrArg (fun i => { s with
      blockNext := update (memset s.blockNext b (clearedBytes special (s.blockSize (cxlPtrPage b)))) b
        (s.info (segmentIndex b)).threadFree
      allocated := update s.allocated b none
      info := i }) info

end State

/-- In a run of the allocator no state is set. -/
theorem Inv.unmarked_eq {s : State} (h : Inv s) : s.unmarked = s := by
  obtain ⟨home, place, -, blocks⟩ := h
  have info : (fun g => (⟨.normal, (s.info g).threadFree⟩ : StateFreeInfo)) = s.info := by
    funext g
    rw [← blocks.normal g]
  exact congrArg (fun i => { s with info := i }) info

end Unmarked

/-! ## The two frees, one after the other -/

section Alike

variable {s s' s₁ s₂ : State} {t b g : ℕ} {special : Bool}

theorem exists_cxlSegmentFree (owner : s.sasThreadId g = t) : ∃ s', s.cxlSegmentFree t g = some s' := by
  have same := State.sameElse_removePages (q := (t, freePage)) (g := g) (pagesPerSegment - 1) s
  obtain ⟨removed, removed_eq⟩ : ∃ removed, removed =
    State.removePages (t, freePage) g (pagesPerSegment - 1) s := ⟨_, rfl⟩
  rw [← removed_eq] at same
  have own : (removed.clearSegment g).sasThreadId g = t := by
    rw [← owner, ← same.sasThreadId]
    rfl
  rw [State.cxlSegmentFree, ← removed_eq]
  exact ⟨_, if_pos own⟩

/-- The free of an own block comes to its end: if it gives the segment back, the segment is the
client's. -/
theorem Inv.exists_cxlFree_own (h : Inv s) (live : s.allocated b = some special)
    (own : s.segmentThreadId (segmentIndex b) = t) : ∃ s', s.cxlFree t special b = some s' := by
  obtain ⟨home, place, pages, blocks⟩ := h
  obtain ⟨u, i, here, -, -, -, -, header, index⟩ := Inv.page_of_allocated pages blocks live
  obtain ⟨-, owner, -⟩ := pages.owned _ u i here
  rw [own] at header
  subst header
  rw [State.cxlFree_own own]
  split
  · simp only [State.cxlPageFree]
    split
    · exact exists_cxlSegmentFree owner
    · exact ⟨_, rfl⟩
  · exact ⟨_, rfl⟩

/-- The header of the segment of an allocated block names the owner. -/
theorem Inv.header_of_allocated (h : Inv s) (live : s.allocated b = some special) :
    s.segmentThreadId (segmentIndex b) = s.sasThreadId (segmentIndex b) ∧
      s.sasThreadId (segmentIndex b) ≠ 0 := by
  obtain ⟨home, place, pages, blocks⟩ := h
  obtain ⟨u, i, here, -, -, -, -, header, index⟩ := Inv.page_of_allocated pages blocks live
  obtain ⟨-, owner, registered, -⟩ := pages.owned _ u i here
  have from_one := (pages.registered u registered).1
  rw [index] at owner
  rw [header, owner]
  exact ⟨rfl, by omega⟩

/-- A free does not take a segment in which another block is allocated. -/
theorem Inv.sasThreadId_of_cxlFree {x : ℕ} {sp : Bool} (h : Inv s) (idle : s.call t = .idle)
    (live : s.allocated b = some special) (run : s.cxlFree t special b = some s')
    (other : s'.allocated x = some sp) :
    s'.sasThreadId (segmentIndex x) = s.sasThreadId (segmentIndex x) := by
  obtain ⟨inv', sas | ⟨sas, -⟩⟩ := h.cxlFree idle live run
  · rw [sas]
  · have taken := (inv'.header_of_allocated other).2
    rw [sas] at taken ⊢
    refine update_of_ne (fun same => ?_) _ _
    rw [same, update_self] at taken
    exact taken rfl

/-- What two runs of frees from `s` on have in common, `s₁` with the client's frees and `s₂` with the
monitor's.  They may differ in the segments of the client. -/
structure FreesAlike (t : ℕ) (s s₁ s₂ : State) : Prop where
  inv : Inv s₁.unmarked
  idle : s₁.call t = .idle
  allocated : s₂.allocated = s₁.allocated
  info : s₂.info = s₁.info
  states : ∀ g, (s₁.info g).state = (s.info g).state
  header : ∀ b special, s₁.allocated b = some special →
    s₁.segmentThreadId (segmentIndex b) = s.sasThreadId (segmentIndex b)
  header' : ∀ b special, s₁.allocated b = some special →
    s₂.segmentThreadId (segmentIndex b) = s.sasThreadId (segmentIndex b)
  blockNext : ∀ a, s.sasThreadId (segmentIndex a) ≠ t → s₂.blockNext a = s₁.blockNext a

theorem FreesAlike.refl (inv : Inv s.unmarked) (idle : s.call t = .idle) : FreesAlike t s s s :=
  have header (b : ℕ) (special : Bool) (live : s.allocated b = some special) :
      s.segmentThreadId (segmentIndex b) = s.sasThreadId (segmentIndex b) :=
    Inv.header_of_allocated inv (show s.unmarked.allocated b = some special from live) |>.1
  ⟨inv, idle, rfl, rfl, fun _ => rfl, header, header, fun _ _ => rfl⟩

/-- A client's block goes to `local_free` and may take its segment along, and the monitor only clears
it; the blocks of others are pushed by both. -/
theorem FreesAlike.free (h : FreesAlike t s s₁ s₂) (live : s₁.allocated b = some false)
    (normal : ∀ g, s.sasThreadId g ≠ t → (s.info g).state ≠ .potentialLeaking) :
    ∃ s', s₁.cxlFree t false b = some s' ∧ s'.allocated = update s₁.allocated b none ∧
      FreesAlike t s s' (s₂.recoveryCxlFree t false b) ∧
      s₁.cxlFreePush t b = s₂.recoveryCxlFreePush t b := by
  have header := h.header b false live
  have header' := h.header' b false live
  have still (x : ℕ) (sp : Bool) (other : update s₁.allocated b none x = some sp) :
      s₁.allocated x = some sp := by
    by_cases same : x = b
    · rw [same, update_self] at other
      cases other
    · rwa [update_of_ne same] at other
  by_cases own : s.sasThreadId (segmentIndex b) = t
  · rw [own] at header header'
    obtain ⟨s', unmarked⟩ := h.inv.exists_cxlFree_own (b := b) live header
    rw [State.unmarked_cxlFree_own header] at unmarked
    obtain ⟨s₁', run, rfl⟩ := Option.map_eq_some_iff.1 unmarked
    have run' : s₁.unmarked.cxlFree t false b = some s₁'.unmarked := by
      rw [State.unmarked_cxlFree_own header, run]
      rfl
    obtain ⟨info, allocated, call, blockNext⟩ := State.own_cxlFree header run
    obtain ⟨inv', -⟩ := h.inv.cxlFree (b := b) h.idle live run'
    have cleared : s₂.recoveryCxlFree t false b = { s₂ with
        blockNext := memset s₂.blockNext b (State.clearedBytes false (s₂.blockSize (cxlPtrPage b)))
        allocated := update s₂.allocated b none } := by
      simp only [State.recoveryCxlFree]
      exact if_neg (not_not.2 header')
    refine ⟨s₁', run, allocated, ⟨inv', ?_, ?_, ?_, ?_, ?_, ?_, ?_⟩, ?_⟩
    · rw [call]
      exact h.idle
    · rw [cleared, allocated, ← h.allocated]
    · rw [cleared, info]
      exact h.info
    · rw [info]
      exact h.states
    · intro x sp other
      have taken := (inv'.header_of_allocated (b := x) other).1
      have same := h.inv.sasThreadId_of_cxlFree (b := b) h.idle live run' (x := x) other
      rw [allocated] at other
      rw [show s₁'.segmentThreadId (segmentIndex x) = _ from taken, same,
        ← h.header x sp (still x sp other)]
      exact (h.inv.header_of_allocated (b := x) (still x sp other)).1.symm
    · intro x sp other
      rw [allocated] at other
      rw [cleared]
      exact h.header' x sp (still x sp other)
    · intro a foreign
      have other : a ≠ b := by
        rintro rfl
        exact foreign own
      rw [cleared, blockNext a other]
      simp only [memset, State.clearedBytes, if_true, h.blockNext a foreign]
    · rw [State.cxlFreePush, State.recoveryCxlFreePush, if_pos header, if_neg (not_not.2 header')]
  · have foreign : s₁.segmentThreadId (segmentIndex b) ≠ t := by rwa [header]
    have foreign' : s₂.segmentThreadId (segmentIndex b) ≠ t := by rwa [header']
    have not_leaking : (s₁.info (segmentIndex b)).state ≠ .potentialLeaking := by
      rw [h.states]
      exact normal _ own
    have run : s₁.cxlFree t false b = some (s₁.recoveryCxlFree t false b) :=
      State.foreign_cxlFree foreign not_leaking
    have pushed (s : State) (other : s.segmentThreadId (segmentIndex b) ≠ t) :
        s.recoveryCxlFree t false b = { s with
          blockNext := update (memset s.blockNext b sizeofCXLObj) b
            (s.info (segmentIndex b)).threadFree
          allocated := update s.allocated b none
          info := update s.info (segmentIndex b)
            ⟨(s.info (segmentIndex b)).state, b⟩ } := by
      simp only [State.recoveryCxlFree]
      exact if_pos other
    have run' : s₁.unmarked.cxlFree t false b = some (s₁.recoveryCxlFree t false b).unmarked := by
      rw [State.unmarked_recoveryCxlFree]
      exact State.foreign_cxlFree (s := s₁.unmarked) foreign (by simp [State.unmarked])
    obtain ⟨inv', -⟩ := h.inv.cxlFree (b := b) h.idle live run'
    have allocated : (s₁.recoveryCxlFree t false b).allocated = update s₁.allocated b none := by
      rw [pushed s₁ foreign]
    refine ⟨_, run, allocated, ⟨inv', ?_, ?_, ?_, ?_, ?_, ?_, ?_⟩, ?_⟩
    · rw [pushed s₁ foreign]
      exact h.idle
    · rw [pushed s₁ foreign, pushed s₂ foreign', h.allocated]
    · rw [pushed s₁ foreign, pushed s₂ foreign', h.info]
    · intro g
      rw [pushed s₁ foreign, ← h.states g]
      by_cases same : g = segmentIndex b
      · subst same
        simp
      · simp [same]
    · intro x sp other
      rw [allocated] at other
      rw [pushed s₁ foreign]
      exact h.header x sp (still x sp other)
    · intro x sp other
      rw [allocated] at other
      rw [pushed s₂ foreign']
      exact h.header' x sp (still x sp other)
    · intro a elsewhere
      rw [pushed s₁ foreign, pushed s₂ foreign', h.info]
      by_cases same : a = b
      · subst same
        simp
      · simp only [update_of_ne same, memset, h.blockNext a elsewhere]
    · rw [State.cxlFreePush, State.recoveryCxlFreePush, if_neg foreign, if_neg not_leaking,
        if_pos foreign']

end Alike

end CxlShm.Heap
