import CxlShm.Lib.Ancestors
import CxlShm.Release.Rounds

/-!
# The collection of what a stopped client refers to

Each drop of `recovery_garbage_collection` is a `recovery_test_free`, and the allocator's pages stay
as they are until the records of the `RootRef` pages are cleared.  `recoveryReferences_collects`
says what is done at the end.  Which objects are left then is a question of reachability only.
-/

namespace CxlShm.Cascade

open Function Fuel Linked

variable {h h' h₂ : Heap} {live live' : Finset Offset} {roots dropped slots : Set ObjLoc} {r q : ObjLoc}
  {o b page : Offset} {t i : ℕ} {s₀ s s' : Site} {c : Belongings}

/-! ## The heap -/

theorem Same.refl (era : ∀ i, h.mem.eraArray i < 2 ^ 32) : Same h h :=
  ⟨rfl, fun _ => rfl, rfl, rfl, era, era⟩

/-- What the counts are exact about is the same in both heaps. -/
theorem Same.exact (same : Same h h₂) (exact : Exact h live roots) : Exact h₂ live roots := by
  have refs : Refs h₂ live roots = Refs h live roots := by
    simp only [Refs, same.cnt]
  have refsTo_eq (o : Offset) : refsTo h₂ live roots o = refsTo h live roots o := by
    simp only [refsTo, refs, same.loc]
  refine ⟨exact.null, exact.apart, ?_, ?_, ?_, ?_, same.era'⟩
  · rw [refs, same.loc]
    exact exact.target
  · intro o ho
    rw [refsTo_eq]
    exact exact.finite o ho
  · intro o ho
    rw [refsTo_eq, same.refCnt]
    exact exact.refCnt o ho
  · intro o ho
    rw [refsTo_eq]
    exact exact.held o ho

/-- A store of null. -/
def Heap.clear (h : Heap) (r : ObjLoc) : Heap := { h with mem := h.mem.setLoc r 0 }

theorem Heap.clear_of_null (null : h.mem.loc r = 0) : h.clear r = h := by
  have loc : update h.mem.loc r 0 = h.mem.loc := by
    rw [update_eq_self_iff]
    exact null.symm
  simp only [Heap.clear, Mem.setLoc, loc]

theorem Same.clear (same : Same h h₂) (r : ObjLoc) : Same (h.clear r) (h₂.clear r) where
  loc := by
    simp only [Heap.clear, Mem.setLoc, same.loc]
  refCnt := same.refCnt
  cnt := same.cnt
  freed := same.freed
  era := same.era
  era' := same.era'

/-- A location that does not count, or is null, may be cleared. -/
theorem Exact.clear (exact : Exact h live roots) (out : r ∈ Refs h live roots → h.mem.loc r = 0) :
    Exact (h.clear r) live roots ∧ Drops h (h.clear r) live live {r} := by
  have same (q : ObjLoc) (hq : q ∈ Refs h live roots) : (h.clear r).mem.loc q = h.mem.loc q := by
    by_cases here : q = r
    · subst here
      rw [out hq]
      exact update_self ..
    · exact update_of_ne here ..
  have refsTo_eq (o : Offset) : refsTo (h.clear r) live roots o = refsTo h live roots o := by
    ext q
    constructor
    · rintro ⟨hq, target⟩
      exact ⟨hq, (same q hq).symm.trans target⟩
    · rintro ⟨hq, target⟩
      exact ⟨hq, (same q hq).trans target⟩
  refine ⟨⟨exact.null, exact.apart, ?_, ?_, ?_, ?_, exact.era⟩, ?_⟩
  · intro q hq
    rw [same q hq]
    exact exact.target q hq
  · intro o ho
    rw [refsTo_eq]
    exact exact.finite o ho
  · intro o ho
    rw [refsTo_eq]
    exact exact.refCnt o ho
  · intro o ho
    rw [refsTo_eq]
    exact exact.held o ho
  · exact
      { Drops.refl h live with
        cleared := by
          rintro q rfl
          exact update_self ..
        slots := fun o ho gone => absurd ho gone
        kept := fun q other _ => update_of_ne other ..
        gone := fun o ho gone => absurd ho gone
        changed := fun o changed => absurd rfl changed }

/-! ## The allocator -/

/-- The two states agree on the records of the pages and the headers of the segments. -/
structure SameRecords (a a' : CxlShm.Heap.State) : Prop where
  free : a'.free = a.free
  blockSize : a'.blockSize = a.blockSize
  next : a'.next = a.next
  first : a'.first = a.first
  header : a'.segmentThreadId = a.segmentThreadId

theorem SameRecords.refl (a : CxlShm.Heap.State) : SameRecords a a := ⟨rfl, rfl, rfl, rfl, rfl⟩

theorem SameRecords.trans {a a' a'' : CxlShm.Heap.State} (h : SameRecords a a')
    (h' : SameRecords a' a'') : SameRecords a a'' :=
  ⟨h'.free.trans h.free, h'.blockSize.trans h.blockSize, h'.next.trans h.next, h'.first.trans h.first,
    h'.header.trans h.header⟩

theorem sameRecords_recoveryCxlFree (a : CxlShm.Heap.State) (t : ℕ) (special : Bool) (b : Offset) :
    SameRecords a (a.recoveryCxlFree t special b) := by
  simp only [CxlShm.Heap.State.recoveryCxlFree]
  split <;> exact ⟨rfl, rfl, rfl, rfl, rfl⟩

theorem recoveryCxlFreePush_congr {a a' : CxlShm.Heap.State}
    (header : a'.segmentThreadId = a.segmentThreadId) :
    a'.recoveryCxlFreePush t = a.recoveryCxlFreePush t := by
  funext b
  simp only [CxlShm.Heap.State.recoveryCxlFreePush, header]

/-- Freeing objects for the client. -/
theorem foldlM_recoveryCxlFree (t : ℕ) (l : List Offset) : ∀ a : Area, ∃ a',
    l.foldlM (fun a o => some (a.recoveryCxlFree t o)) a = some a' ∧ SameRecords a.alloc a'.alloc ∧
      a'.pushed = a.pushed ++ l.flatMap (a.alloc.recoveryCxlFreePush t) := by
  induction l with
  | nil =>
    intro a
    exact ⟨a, rfl, .refl _, (List.append_nil _).symm⟩
  | cons o l ih =>
    intro a
    obtain ⟨a', run, records, pushed⟩ := ih (a.recoveryCxlFree t o)
    have first : SameRecords a.alloc (a.recoveryCxlFree t o).alloc :=
      sameRecords_recoveryCxlFree a.alloc t false o
    refine ⟨a', run, first.trans records, ?_⟩
    rw [pushed, recoveryCxlFreePush_congr first.header, List.flatMap_cons, ← List.append_assoc]
    rfl

/-! ## One reference -/

/-- `s` is `s₀` without the references in `dropped`, which were dropped for the slot of `t`. -/
structure Dropped (t : ℕ) (live live' : Finset Offset) (roots dropped : Set ObjLoc) (s₀ s : Site) :
    Prop where
  heap : ∃ h, Same h s.world.heap ∧ Exact h live' roots ∧ Drops s₀.world.heap h live live' dropped
  pushed : ∃ l, s.world.heap.freed = s₀.world.heap.freed ++ l ∧
    s.world.area.pushed = s₀.world.area.pushed ++ l.flatMap (s₀.alloc.recoveryCxlFreePush t)
  header : s.alloc.segmentThreadId = s₀.alloc.segmentThreadId

theorem Dropped.exact (d : Dropped t live live' roots dropped s₀ s) :
    Exact s.world.heap live' roots := by
  obtain ⟨h, same, exact, -⟩ := d.heap
  exact same.exact exact

theorem Dropped.shrinks (d : Dropped t live live' roots dropped s₀ s) : live' ⊆ live := by
  obtain ⟨h, -, -, d⟩ := d.heap
  exact d.shrinks

/-- A location outside the objects that has not been dropped. -/
theorem Dropped.loc_root (d : Dropped t live live' roots dropped s₀ s) {k : ℕ}
    (out : ObjLoc.root k ∉ dropped) : s.loc (.root k) = s₀.loc (.root k) := by
  obtain ⟨h, same, -, d⟩ := d.heap
  rw [Site.loc, same.loc]
  exact d.kept _ out fun o _ _ i _ => nofun

theorem Dropped.cleared (d : Dropped t live live' roots dropped s₀ s) (hr : r ∈ dropped) :
    s.loc r = 0 := by
  obtain ⟨h, same, -, d⟩ := d.heap
  rw [Site.loc, same.loc]
  exact d.cleared r hr

/-- `recovery_test_free` of a root. -/
theorem Dropped.recoveryTestFree (d : Dropped t live live' roots dropped s₀ s) (hr : r ∈ roots) :
    ∃ w live'', Ends (fun fuel => s.recoveryTestFree t fuel r) { s with world := w } ∧
      Dropped t live live'' roots (dropped ∪ {r}) s₀ { s with world := w } ∧
      SameRecords s.alloc w.area.alloc := by
  obtain ⟨⟨h, same, exact, d⟩, ⟨l, freed, pushed⟩, header⟩ := d
  obtain ⟨h', live'', ⟨k, counts⟩, exact', d'⟩ := testFree_dropCounted t _ h live' roots r rfl exact hr
  obtain ⟨l', h₃, freed', same', runs⟩ :=
    (follows_recoveryTestFree t).testFree k same (counts k le_rfl)
  obtain ⟨a', frees, records, pushed'⟩ := foldlM_recoveryCxlFree t l' s.world.area
  have run : s.world.recoveryTestFree t k r = some ⟨h₃, a'⟩ := runs s.world.area a' frees
  refine ⟨⟨h₃, a'⟩, live'', ⟨k, fun fuel enough => ?_⟩, ⟨⟨h', same', exact', d.trans d'⟩, ?_, ?_⟩,
    records⟩
  · show (s.world.recoveryTestFree t fuel r).map _ = _
    rw [recoveryTestFree_mono enough run, Option.map_some]
  · refine ⟨l ++ l', ?_, ?_⟩
    · rw [← List.append_assoc, ← freed, same.freed]
      exact same'.freed.trans freed'
    · rw [List.flatMap_append, ← List.append_assoc, ← pushed, ← recoveryCxlFreePush_congr header]
      exact pushed'
  · exact records.header.trans header

/-- A location that does not count, or is null already, as one more that is dropped. -/
theorem Dropped.clear (d : Dropped t live live' roots dropped s₀ s)
    (out : r ∈ Refs s.world.heap live' roots → s.loc r = 0) {a : Area}
    (header : a.alloc.segmentThreadId = s.alloc.segmentThreadId)
    (pushed : a.pushed = s.world.area.pushed)
    (heap : s'.world = ⟨s.world.heap.clear r, a⟩) :
    Dropped t live live' roots (dropped ∪ {r}) s₀ s' := by
  obtain ⟨⟨h, same, exact, d⟩, ⟨l, freed, pushed'⟩, header'⟩ := d
  have refs : Refs s.world.heap live' roots = Refs h live' roots := by
    simp only [Refs, same.cnt]
  obtain ⟨exact', d'⟩ := exact.clear (r := r) (by
    rw [refs, Site.loc, same.loc] at out
    exact out)
  refine ⟨⟨h.clear r, ?_, exact', d.trans d'⟩, ⟨l, ?_, ?_⟩, ?_⟩
  · rw [heap]
    exact same.clear r
  · rw [heap]
    exact freed
  · rw [heap]
    exact pushed.trans pushed'
  · rw [Site.alloc, heap]
    exact header.trans header'

/-- The references in `dropped` are dropped, and the records of all pages but `cleared` are as they
were. -/
structure DoneFor (t : ℕ) (live : Finset Offset) (roots : Set ObjLoc) (cleared : List Offset)
    (s₀ : Site) (dropped : Set ObjLoc) (s : Site) : Prop where
  dropped : ∃ live', Dropped t live live' roots dropped s₀ s
  record : ∀ page ∉ cleared, s.alloc.free page = s₀.alloc.free page ∧
    s.alloc.blockSize page = s₀.alloc.blockSize page ∧ s.alloc.next page = s₀.alloc.next page

variable {freed : Set Offset} {cleared : List Offset}

theorem DoneFor.of_records {w : World} {dropped' : Set ObjLoc}
    (d : DoneFor t live roots cleared s₀ dropped s)
    (done : ∃ live', Dropped t live live' roots dropped' s₀ { s with world := w })
    (records : SameRecords s.alloc w.area.alloc) :
    DoneFor t live roots cleared s₀ dropped' { s with world := w } where
  dropped := done
  record page out := by
    obtain ⟨free, blockSize, next⟩ := d.record page out
    exact ⟨(congrFun records.free page).trans free, (congrFun records.blockSize page).trans blockSize,
      (congrFun records.next page).trans next⟩

/-- The monitor can drop a reference. -/
theorem handles_recoveryTestFree (t : ℕ) (live : Finset Offset) (roots : Set ObjLoc)
    (cleared : List Offset) (s₀ : Site) :
    Handles roots (fun fuel s => s.recoveryTestFree t fuel) (DoneFor t live roots cleared s₀) where
  drop := by
    intro dropped s r done root _
    obtain ⟨live', d⟩ := done.dropped
    obtain ⟨w, live'', ends, d', records⟩ := d.recoveryTestFree root
    exact ⟨w, ends, done.of_records ⟨live'', d'⟩ records⟩
  null := by
    intro dropped s r done null
    obtain ⟨live', d⟩ := done.dropped
    refine done.of_records (w := s.world) ⟨live', ?_⟩ (.refl _)
    exact d.clear (a := s.world.area) (fun _ => null) rfl rfl (by rw [Heap.clear_of_null null])
  sender := by
    intro dropped s q done
    obtain ⟨live', d⟩ := done.dropped
    exact ⟨⟨live', d.heap, d.pushed, d.header⟩, done.record⟩
  receiver := by
    intro dropped s q done
    obtain ⟨live', d⟩ := done.dropped
    exact ⟨⟨live', d.heap, d.pushed, d.header⟩, done.record⟩

/-! ## The `RootRef`s -/

/-- A page of `RootRef`s of the client. -/
theorem Stopped.rootPage (stopped : Stopped t s live roots c) (hp : page ∈ c.pages) :
    IsPage page ∧ s.alloc.blockSize page = 16 ∧ s.alloc.segmentThreadId (segmentIndex page) = t := by
  obtain ⟨home, place, pages, -⟩ := stopped.alloc
  obtain ⟨l, dll, mem⟩ := pages.queues (t, 0)
  have here : home page = some (t, 0) := (mem page).1 (stopped.pages.unique dll.1 ▸ hp)
  obtain ⟨isPage, owner, registered, -⟩ := pages.owned page t 0 here
  have from_one := (pages.registered t registered).1
  have header := pages.header (segmentIndex page) (by rw [owner]; omega)
  exact ⟨isPage, pages.blockSize page t 0 here (by decide), header.trans owner⟩

/-- An object is not the first free block of its page, and does not lie in a page of `RootRef`s. -/
theorem Stopped.object (stopped : Stopped t s live roots c) (ho : o ∈ live) :
    o ≠ s.alloc.free (cxlPtrPage o) ∧ cxlPtrPage o ∉ c.pages := by
  obtain ⟨home, place, pages, blocks⟩ := stopped.alloc
  have here := (blocks.allocated o false).1 (stopped.objects o ho)
  constructor
  · intro head
    have some : s.alloc.unmarked.heads 0 (.free (cxlPtrPage o)) ≠ 0 :=
      fun null => stopped.exact.ne_zero ho (head.trans null)
    have listed := blocks.lists.place_head some
    rw [show s.alloc.unmarked.heads 0 (.free (cxlPtrPage o)) = o from head.symm, here] at listed
    cases listed
  · intro inside
    obtain ⟨l, dll, mem⟩ := pages.queues (t, 0)
    have home_eq : home (cxlPtrPage o) = .some (t, 0) :=
      (mem _).1 (stopped.pages.unique dll.1 ▸ inside)
    exact absurd (blocks.bin o false t 0 here home_eq).1 (by decide)

/-- What the round for a `RootRef` does with the reference in it. -/
theorem Stopped.dropRoot (stopped : Stopped t s₀ live roots c)
    (d : Dropped t live live' roots dropped s₀ s) (hp : page ∈ c.pages)
    (hb : CxlShm.Heap.InPage page 0 b) (used : s₀.inUse b = true) (out : ObjLoc.root b ∉ dropped)
    (free : ∀ page ∉ c.pages, s.alloc.free page = s₀.alloc.free page) :
    ∃ w live'', Ends (fun fuel =>
        if s.loc (.root b) ≠ 0 ∧ s.loc (.root b) ≠ s.alloc.free (cxlPtrPage (s.loc (.root b))) ∧
          ¬ (cxlPageStart page ≤ s.loc (.root b) ∧
            s.loc (.root b) ≤ cxlPageStart page + (pageSize / 16 - 1) * 16)
        then s.recoveryTestFree t fuel (.root b) else some s) { s with world := w } ∧
      (∃ dropped', Dropped t live live'' roots dropped' s₀ { s with world := w } ∧
        dropped' ∪ {.root b} = dropped ∪ {.root b}) ∧
      (.root b ∈ roots → w.heap.mem.loc (.root b) = 0) ∧ SameRecords s.alloc w.area.alloc := by
  have same : s.loc (.root b) = s₀.loc (.root b) := d.loc_root out
  have stays (skip : s.loc (.root b) = 0 ∨
      s.loc (.root b) = s.alloc.free (cxlPtrPage (s.loc (.root b)))) :
      ¬ (s.loc (.root b) ≠ 0 ∧ s.loc (.root b) ≠ s.alloc.free (cxlPtrPage (s.loc (.root b))) ∧
        ¬ (cxlPageStart page ≤ s.loc (.root b) ∧
          s.loc (.root b) ≤ cxlPageStart page + (pageSize / 16 - 1) * 16)) := by
    tauto
  by_cases null : s.loc (.root b) = 0
  · exact ⟨s.world, live', (Ends.pure s).of_eq 0 fun _ _ => if_neg (stays (.inl null)), ⟨_, d, rfl⟩,
      fun _ => null, .refl _⟩
  by_cases root : ObjLoc.root b ∈ roots
  · have object : s.loc (.root b) ∈ live := d.shrinks (d.exact.root_live root null)
    obtain ⟨not_free, elsewhere⟩ := stopped.object object
    have goes : s.loc (.root b) ≠ 0 ∧
        s.loc (.root b) ≠ s.alloc.free (cxlPtrPage (s.loc (.root b))) ∧
        ¬ (cxlPageStart page ≤ s.loc (.root b) ∧
          s.loc (.root b) ≤ cxlPageStart page + (pageSize / 16 - 1) * 16) := by
      refine ⟨null, by rwa [free _ elsewhere], fun ⟨low, high⟩ => elsewhere ?_⟩
      obtain ⟨x, at_x⟩ := Nat.exists_eq_add_of_le low
      rw [at_x] at high ⊢
      have inside : x ≤ 65520 := Nat.le_of_add_le_add_left high
      have whole : pageSize = 65536 := rfl
      rw [hb.isPage.cxlPtrPage_add (by omega)]
      exact hp
    obtain ⟨w, live'', ends, d', records⟩ := d.recoveryTestFree root
    refine ⟨w, live'', ends.of_eq 0 fun _ _ => if_pos goes, ⟨_, d', ?_⟩, fun _ => ?_, records⟩
    · rw [Set.union_assoc, Set.union_self]
    · exact d'.cleared (.inr rfl)
  · obtain ⟨building, elsewhere⟩ :=
      (stopped.held b ⟨page, hp, hb⟩ used).resolve_left root
    rw [← same] at building elsewhere
    have skip := stays (.inr (by rw [free _ elsewhere]; exact building))
    exact ⟨s.world, live', (Ends.pure s).of_eq 0 fun _ _ => if_neg skip, ⟨_, d, rfl⟩,
      fun inside => absurd inside root, .refl _⟩

theorem segmentIndex_of_inPage (hb : CxlShm.Heap.InPage page 0 b) :
    segmentIndex b = segmentIndex page := by
  obtain ⟨x, inside, there⟩ := hb.inside le_rfl (Nat.lt_add_of_pos_right (by decide))
  rw [there]
  exact hb.isPage.segmentIndex_add inside

/-- The round for a block of a page of `RootRef`s. -/
theorem Progress.recoveryRoot (stopped : Stopped t s₀ live roots c)
    (p : Progress (DoneFor t live roots cleared s₀) ∅ freed [] [] s₀ s)
    (sub : ∀ page ∈ cleared, page ∈ c.pages) (hp : page ∈ c.pages) (hb : CxlShm.Heap.InPage page 0 b) :
    ∃ s', Ends (fun fuel => s.recoveryRoot t (cxlPageStart page)
        (cxlPageStart page + (pageSize / 16 - 1) * 16) fuel b) s' ∧
      Progress (DoneFor t live roots cleared s₀) ∅ (freed ∪ {b}) [] [] s₀ s' := by
  by_cases used : s.inUse b = true
  case neg =>
    refine ⟨s, (Ends.pure s).of_eq 0 fun _ _ => if_neg used, p.unused ?_⟩
    rintro x rfl
    exact Bool.eq_false_iff.2 used
  case pos =>
    have done := p.done
    rw [Set.union_empty] at done
    obtain ⟨live', d⟩ := done.dropped
    obtain ⟨used₀, out⟩ := p.root_notMem used
    obtain ⟨w, live'', ends, ⟨dropped', d', union⟩, null, records⟩ :=
      stopped.dropRoot d hp hb used₀ out fun page other =>
        (done.record page fun hc => other (sub page hc)).1
    have own : w.area.alloc.segmentThreadId (segmentIndex b) = t := by
      rw [segmentIndex_of_inPage hb, records.header, d.header]
      exact (stopped.rootPage hp).2.2
    have push : w.area.alloc.recoveryCxlFreePush t b = [] := if_neg (not_not.2 own)
    have freeing := sameRecords_recoveryCxlFree w.area.alloc t true b
    have after : Dropped t live live'' roots (dropped' ∪ {.root b}) s₀
        (Site.recoveryFreeRoot t { s with world := w } b) := by
      refine d'.clear (a := ⟨w.area.alloc.recoveryCxlFree t true b, _⟩) ?_ freeing.header ?_ rfl
      · rintro (root | ⟨o, -, i, -, eq⟩)
        · exact null root
        · cases eq
      · exact (congrArg (w.area.pushed ++ ·) push).trans (List.append_nil _)
    rw [union] at after
    have done' := done.of_records (w := (Site.recoveryFreeRoot t { s with world := w } b).world)
      ⟨live'', after.heap, after.pushed, after.header⟩ (records.trans freeing)
    exact ⟨_, (ends.map rfl).of_eq 0 fun _ _ => if_pos used,
      p.free used ⟨⟨live'', after⟩, done'.record⟩ rfl rfl rfl rfl⟩

/-- The blocks of a page of `RootRef`s, as the loop comes to them. -/
theorem mem_rootBlocks (hp : IsPage page) :
    b ∈ CxlShm.Heap.blocksFrom 16 (pageSize / 16) (cxlPageStart page) ↔
      CxlShm.Heap.InPage page 0 b := by
  rw [CxlShm.Heap.mem_blocksFrom]
  exact ⟨fun at_index => ⟨hp, at_index⟩, fun hb => hb.at_index⟩

/-- The round for a page of `RootRef`s. -/
theorem Progress.recoveryRootPage (stopped : Stopped t s₀ live roots c)
    (p : Progress (DoneFor t live roots cleared s₀) ∅ freed [] [] s₀ s)
    (sub : ∀ page ∈ cleared, page ∈ c.pages) (hp : page ∈ c.pages) (new : page ∉ cleared) :
    ∃ s', Ends (fun fuel => s.recoveryRootPage t fuel page) s' ∧
      Progress (DoneFor t live roots (cleared ++ [page]) s₀) ∅
        (freed ∪ {b | CxlShm.Heap.InPage page 0 b}) [] [] s₀ s' := by
  obtain ⟨isPage, size, -⟩ := stopped.rootPage hp
  have bs : s.alloc.blockSize page = 16 := (p.done.record page new).2.1.trans size
  obtain ⟨s₁, ends, p₁⟩ := ends_foldlM
    (l := CxlShm.Heap.blocksFrom 16 (pageSize / 16) (cxlPageStart page))
    (f := fun fuel s b => Site.recoveryRoot t (cxlPageStart page)
      (cxlPageStart page + (pageSize / 16 - 1) * 16) fuel s b)
    (P := fun done s =>
      Progress (DoneFor t live roots cleared s₀) ∅ (freed ∪ {b | b ∈ done}) [] [] s₀ s)
    (s := s) (by simpa using p) (by
      intro done b rest s split p
      have hb : CxlShm.Heap.InPage page 0 b :=
        (mem_rootBlocks isPage).1 (split ▸ List.mem_append_right done List.mem_cons_self)
      obtain ⟨s', ends, p'⟩ := p.recoveryRoot stopped sub hp hb
      refine ⟨s', ends, ?_⟩
      have grown : freed ∪ {x | x ∈ done ++ [b]} = freed ∪ {x | x ∈ done} ∪ {b} := by
        ext x
        simp only [Set.mem_union, Set.mem_ofPred_eq, List.mem_append, List.mem_singleton,
          Set.mem_singleton_iff, or_assoc]
      rw [grown]
      exact p')
  let clear (s : Site) : Site := { s with world.area.alloc := s.alloc.clearPage page }
  refine ⟨clear s₁, ?_, ?_⟩
  · refine (ends.map (f := clear) rfl).of_eq 0 fun fuel _ => ?_
    simp only [Site.recoveryRootPage, bs]
    rfl
  · have blocks : {b | b ∈ CxlShm.Heap.blocksFrom 16 (pageSize / 16) (cxlPageStart page)} =
        {b | CxlShm.Heap.InPage page 0 b} := by
      ext b
      exact mem_rootBlocks isPage
    rw [blocks] at p₁
    obtain ⟨live', d⟩ := p₁.done.dropped
    refine { p₁ with done := ⟨⟨live', d.heap, d.pushed, d.header⟩, fun page' out => ?_⟩ }
    have other : page' ≠ page := fun same => out (by simp [same])
    have before := p₁.done.record page' fun hc => out (List.mem_append_left _ hc)
    simpa [clear, Site.alloc, CxlShm.Heap.State.clearPage, other] using before

/-- The `RootRef`s of one more page. -/
theorem rootRefs_append_singleton (pages : List Offset) (page : Offset) :
    rootRefs (pages ++ [page]) = rootRefs pages ∪ {b | CxlShm.Heap.InPage page 0 b} := by
  ext b
  constructor
  · rintro ⟨x, hx, hb⟩
    rcases List.mem_append.1 hx with hx | hx
    · exact .inl ⟨x, hx, hb⟩
    · obtain rfl := List.mem_singleton.1 hx
      exact .inr hb
  · rintro (⟨x, hx, hb⟩ | hb)
    · exact ⟨x, List.mem_append_left _ hx, hb⟩
    · exact ⟨page, by simp, hb⟩

theorem rootRefs_nil : rootRefs [] = ∅ := by
  ext b
  simp [rootRefs]

/-- A page between those that come before and after it. -/
theorem Stopped.between (stopped : Stopped t s live roots c) {done rest : List Offset}
    (split : c.pages = done ++ page :: rest) :
    (∀ page ∈ done, page ∈ c.pages) ∧ page ∈ c.pages ∧ page ∉ done := by
  have nodup := stopped.pages.nodup
  rw [split] at nodup ⊢
  refine ⟨fun x hx => List.mem_append_left _ hx, by simp, fun again => ?_⟩
  exact (List.nodup_append.1 nodup).2.2 page again page List.mem_cons_self rfl

/-- All pages of `RootRef`s. -/
theorem Stopped.recoveryRootPages (stopped : Stopped t s₀ live roots c) :
    ∃ s, Ends (fun fuel => walk (fun s page => s.alloc.next page) 0 (Site.recoveryRootPage t fuel) fuel
        (s₀.alloc.first (t, 0)) s₀) s ∧
      Progress (DoneFor t live roots c.pages s₀) ∅ (rootRefs c.pages) [] [] s₀ s := by
  have start : DoneFor t live roots [] s₀ ∅ s₀ :=
    ⟨⟨live, ⟨_, .refl stopped.exact.era, stopped.exact, .refl _ _⟩, ⟨[], by simp⟩, rfl⟩,
      fun _ _ => ⟨rfl, rfl, rfl⟩⟩
  refine ends_walk (P := fun done s =>
    Progress (DoneFor t live roots done s₀) ∅ (rootRefs done) [] [] s₀ s) stopped.pages
    (rootRefs_nil ▸ .start start) ?_ ?_
  · intro done page rest s split p
    exact (p.done.record page (stopped.between split).2.2).2.2
  · intro done page rest s split p
    obtain ⟨sub, hp, new⟩ := stopped.between split
    obtain ⟨s', ends, p'⟩ := p.recoveryRootPage stopped sub hp new
    refine ⟨s', ends, ?_⟩
    rw [rootRefs_append_singleton]
    exact p'

/-! ## The whole collection -/

/-- Where the references of the client have been dropped. -/
theorem collected_of_drops {h : Heap} (stopped : Stopped t s₀ live roots c)
    (same : Same h s.world.heap) (exact : Exact h live' roots)
    (d : Drops s₀.world.heap h live live' (s₀.references c))
    (pushes : ∃ l, s.world.heap.freed = s₀.world.heap.freed ++ l ∧
      s.world.area.pushed = s₀.world.area.pushed ++ l.flatMap (s₀.alloc.recoveryCxlFreePush t))
    (inUse : ∀ b, s.inUse b = true ↔ s₀.inUse b = true ∧ b ∉ rootRefs c.pages)
    (queue : ∀ q, s.queue q = { s₀.queue q with
      senderId := if q ∈ c.senders then 0 else (s₀.queue q).senderId
      receiverId := if q ∈ c.receivers then 0 else (s₀.queue q).receiverId }) :
    Collected t s₀ s live live' roots c := by
  have outside {r : ObjLoc} (hr : r ∈ s₀.references c) : ∃ k, r = .root k := by
    rcases hr with ⟨b, -, -, rfl⟩ | ⟨q, -, i, -, -, rfl⟩ | ⟨q, -, i, -, -, rfl⟩ <;> exact ⟨_, rfl⟩
  refine ⟨same.exact exact, d.shrinks, ?dropped, ?kept, ?inside, ?freed, inUse, queue⟩
  case dropped =>
    intro r hr
    rw [Site.loc, same.loc]
    exact d.cleared r hr
  case kept =>
    intro r root out
    rw [Site.loc, same.loc]
    apply d.kept r out
    rintro o ho - i - rfl
    exact stopped.exact.apart o ho i root
  case inside =>
    intro o ho
    refine ⟨?_, fun i => ?_⟩
    · rw [same.cnt]
      exact d.cnt o (.inr ho)
    · rw [Site.loc, same.loc]
      apply d.kept
      · intro inside
        obtain ⟨k, eq⟩ := outside inside
        cases eq
      · rintro x - gone j - eq
        cases eq
        exact gone ho
  case freed =>
    obtain ⟨l, freed, nodup, mem⟩ := d.freed
    obtain ⟨l', freed', pushed⟩ := pushes
    rw [same.freed, freed] at freed'
    obtain rfl := List.append_cancel_left freed'
    refine ⟨l, ?_, nodup, mem, pushed⟩
    rw [same.freed, freed]

/-- The end of the last loop. -/
theorem Progress.collected (stopped : Stopped t s₀ live roots c)
    (p : Progress (DoneFor t live roots cleared s₀) ({r | ∃ q ∈ c.senders, r ∈ s₀.leftBySender q} ∪
      {r | ∃ q ∈ c.receivers, r ∈ s₀.leftByReceiver q}) (rootRefs c.pages) c.senders c.receivers s₀ s) :
    ∃ live', Collected t s₀ s live live' roots c := by
  obtain ⟨live', d⟩ := p.done.dropped
  obtain ⟨h, same, exact, d'⟩ := d.heap
  exact ⟨live', collected_of_drops stopped same exact d' d.pushed p.inUse p.queue⟩

/-- The loops, one after the other. -/
theorem Stopped.collected (stopped : Stopped t s live roots c) :
    ∃ s' live', Ends (s.recoveryReferences t) s' ∧ Collected t s s' live live' roots c := by
  obtain ⟨s₁, ends₁, p₁⟩ := stopped.recoveryRootPages
  obtain ⟨s₂, ends₂, p₂⟩ := p₁.queues stopped (handles_recoveryTestFree t live roots c.pages s)
  obtain ⟨live', collected⟩ := p₂.collected stopped
  exact ⟨s₂, live', ends₁.bind ends₂, collected⟩

/-- The collection ends: the references that belong to the client are dropped, every object that
nothing refers to any more is freed once, and the counts are right again. -/
theorem recoveryReferences_collects (stopped : Stopped t s live roots c) :
    ∃ s' live', Ends (s.recoveryReferences t) s' ∧ Collected t s s' live live' roots c :=
  stopped.collected

/-! ## Which objects are left -/

/-- What is reached from the references that remain is left. -/
theorem Collected.of_reach (collected : Collected t s s' live live' roots c)
    (reached : Reach s.world.heap (roots \ s.references c) o) : o ∈ live' := by
  induction reached with
  | @start q hq some =>
    have same := collected.kept q hq.1 hq.2
    have target := collected.exact.target q (.inl hq.1)
    rw [show s'.world.heap.mem.loc q = _ from same] at target
    exact target.resolve_left some
  | @next o i _ below some ih =>
    obtain ⟨cnt, slots⟩ := collected.inside o ih
    have target := collected.exact.target (.embedded o i) (.inr ⟨o, ih, i, by rwa [cnt], rfl⟩)
    rw [show s'.world.heap.mem.loc (.embedded o i) = _ from slots i] at target
    exact target.resolve_left some

/-- An embedded reference of `x` is to `y`. -/
def Embeds (h : Heap) (x y : Offset) : Prop :=
  ∃ i < h.embeddedRefCnt x, h.mem.loc (.embedded x i) = y ∧ y ≠ 0

theorem Reach.trans_embeds {locs : Set ObjLoc} {x y : Offset} (reached : Reach h locs x)
    (path : Relation.ReflTransGen (Embeds h) x y) : Reach h locs y := by
  induction path with
  | refl => exact reached
  | tail _ last ih =>
    obtain ⟨i, below, rfl, some⟩ := last
    exact .next ih below some

/-- What is left is reached from the references that remain, or from objects that refer to each
other in a circle. -/
theorem Collected.reach_or_cycle (collected : Collected t s s' live live' roots c) (ho : o ∈ live') :
    Reach s.world.heap (roots \ s.references c) o ∨
      ∃ x ∈ live', Relation.TransGen (Embeds s.world.heap) x x ∧
        Relation.ReflTransGen (Embeds s.world.heap) x o := by
  have from_one : ∀ y ∈ live', Reach s.world.heap (roots \ s.references c) y ∨
      ∃ z ∈ live', Embeds s.world.heap z y := by
    intro y hy
    have some := collected.exact.ne_zero hy
    obtain ⟨q, root | ⟨z, hz, i, below, rfl⟩, rfl⟩ := collected.exact.held y hy
    · have remains : q ∉ s.references c := fun gone => some (collected.dropped q gone)
      have same : s'.world.heap.mem.loc q = s.world.heap.mem.loc q := collected.kept q root remains
      rw [same] at some ⊢
      exact .inl (.start ⟨root, remains⟩ some)
    · obtain ⟨cnt, slots⟩ := collected.inside z hz
      rw [cnt] at below
      exact .inr ⟨z, hz, i, below, (slots i).symm, some⟩
  rcases Ancestors.exists_start_or_cycle from_one ho with ⟨y, -, reached, path⟩ | cycle
  · exact .inl (reached.trans_embeds path)
  · exact .inr cycle

/-- The collection leaves what is still reached from elsewhere, and else only what hangs on a circle
of embedded references. -/
theorem recoveryReferences_survivors (stopped : Stopped t s live roots c) :
    ∃ s' live', Ends (s.recoveryReferences t) s' ∧ Exact s'.world.heap live' roots ∧
      (∀ o, Reach s.world.heap (roots \ s.references c) o → o ∈ live') ∧
      ∀ o ∈ live', Reach s.world.heap (roots \ s.references c) o ∨
        ∃ x ∈ live', Relation.TransGen (Embeds s.world.heap) x x ∧
          Relation.ReflTransGen (Embeds s.world.heap) x o := by
  obtain ⟨s', live', ends, collected⟩ := stopped.collected
  exact ⟨s', live', ends, collected.exact, fun _ => collected.of_reach,
    fun _ ho => collected.reach_or_cycle ho⟩

/-! ## A client that stops after it has sent a message -/

/-- The only `RootRef` refers to `o`, which refers to `p`, and `p` is the only message. -/
def mailed (b q o p : Offset) : Heap where
  mem :=
    { refInfo := fun x => if x = o then packRefInfo 1 1 1 else if x = p then packRefInfo 1 2 1 else 0
      eraArray := fun _ => 3
      loc := fun r =>
        if r = .root b then o
        else if r = .embedded o 0 ∨ r = bufferSlot q 0 then p
        else 0
      redo := fun _ _ => none }
  embeddedRefCnt := fun x => if x = o then 1 else 0
  freed := []

/-- The `RootRef` and the slots of the queue. -/
def mailRoots (b q : Offset) : Set ObjLoc :=
  {r | r = .root b ∨ ∃ i < messageBufferSize, r = bufferSlot q i}

theorem exact_mailed {b q o p : Offset} (some : o ≠ 0) (some' : p ≠ 0) (apart : p ≠ o)
    (outside : ∀ i, bufferSlot q i ≠ .root b) : Exact (mailed b q o p) {o, p} (mailRoots b q) := by
  have one : getRefCntFromInfo (packRefInfo 1 1 1) = 1 := by decide
  have two : getRefCntFromInfo (packRefInfo 1 2 1) = 2 := by decide
  have refs (r : ObjLoc) : r ∈ Refs (mailed b q o p) {o, p} (mailRoots b q) ↔
      r ∈ mailRoots b q ∨ r = .embedded o 0 := by
    refine or_congr_right ⟨?_, ?_⟩
    · rintro ⟨x, -, i, hi, rfl⟩
      by_cases here : x = o
      · subst here
        obtain rfl : i = 0 := by simpa [mailed] using hi
        rfl
      · simp [mailed, here] at hi
    · rintro rfl
      exact ⟨o, by simp, 0, by simp [mailed], rfl⟩
  have first : refsTo (mailed b q o p) {o, p} (mailRoots b q) o = {.root b} := by
    ext r
    rw [mem_refsTo, refs]
    constructor
    · rintro ⟨-, target⟩
      by_contra other
      simp only [mailed, if_neg (show r ≠ .root b from other)] at target
      split at target
      · exact apart target
      · exact some target.symm
    · rintro rfl
      exact ⟨.inl (.inl rfl), by simp [mailed]⟩
  have second : refsTo (mailed b q o p) {o, p} (mailRoots b q) p = {.embedded o 0, bufferSlot q 0} := by
    ext r
    rw [mem_refsTo, refs]
    constructor
    · rintro ⟨-, target⟩
      simp only [mailed] at target
      split at target
      · exact absurd target.symm apart
      · split at target
        · next either => exact either
        · exact absurd target.symm some'
    · rintro (rfl | rfl)
      · exact ⟨.inr rfl, by simp [mailed]⟩
      · exact ⟨.inl (.inr ⟨0, by decide, rfl⟩), by simp [mailed, outside]⟩
  refine ⟨?null, ?outside, ?target, ?finite, ?refCnt, ?held, by simp [mailed]⟩
  case null =>
    intro inside
    rcases Finset.mem_insert.1 inside with h | h
    · exact some h.symm
    · exact some' (Finset.mem_singleton.1 h).symm
  case outside =>
    rintro x - i (h | ⟨j, -, h⟩) <;> cases h
  case target =>
    intro r _
    simp only [mailed]
    split
    · exact .inr (Finset.mem_insert_self _ _)
    · split
      · exact .inr (by simp)
      · exact .inl rfl
  all_goals
    intro x hx
    rcases Finset.mem_insert.1 hx with rfl | hx
  case finite.inl => rw [first]; exact Set.finite_singleton _
  case finite.inr =>
    obtain rfl := Finset.mem_singleton.1 hx
    rw [second]
    exact Set.toFinite _
  case refCnt.inl =>
    rw [first, Set.ncard_singleton]
    simp [mailed, one]
  case refCnt.inr =>
    obtain rfl := Finset.mem_singleton.1 hx
    have different : ObjLoc.embedded o 0 ≠ bufferSlot q 0 := nofun
    rw [second, Set.ncard_pair different]
    simp [mailed, apart, two]
  case held.inl => rw [first]; exact Set.singleton_nonempty _
  case held.inr =>
    obtain rfl := Finset.mem_singleton.1 hx
    rw [second]
    exact Set.insert_nonempty _ _

/-- Client 1 has a `RootRef`, an object and a queue, and client 2 an object. -/
def mailReady (s : CxlShm.Heap.State) : Bool :=
  decide (s.call 1 = .idle) && decide (s.first (1, 0) = 134217784) && decide (s.next 134217784 = 0) &&
    decide (s.allocated 134283264 = some true) && decide (s.allocated 134348800 = some false) &&
    decide (s.allocated 201392128 = some false)

theorem exists_mailReady : ∃ a, CxlShm.Heap.Inv a ∧ mailReady a = true := by
  have run : (Reachability.checkedRun (CxlShm.Heap.step (1 <<< 28)) CxlShm.Heap.carefulCheck
      CxlShm.Heap.State.init [.threadInit 1, .threadInit 2, .alloc 1 .rootRef, .find 1 0 0,
        .alloc 1 (.obj 24), .find 1 0 0, .alloc 1 .msgQueue, .find 1 0 0, .alloc 2 (.obj 24),
        .find 2 1 0]).any mailReady = true := by
    decide +kernel
  obtain ⟨a, reached, ready⟩ := Reachability.exists_reachable_of_checkedRun (J := fun _ => True)
    (fun _ _ _ _ _ passed => ⟨trivial, CxlShm.Heap.careful_of_check passed⟩) trivial run
  exact ⟨a, .of_reachable reached, ready⟩

/-- The objects and the queue, over the allocator. -/
def mailSite (a : CxlShm.Heap.State) : Site where
  world := ⟨mailed 134283264 134414336 134348800 201392128, ⟨a, []⟩⟩
  inUse b := b = 134283264
  queue _ := ⟨0, 1, 1, 2, 0, 0⟩
  senderQueue t := if t = 1 then 134414336 else 0
  receiverQueue _ := 0

theorem stopped_mailSite {a : CxlShm.Heap.State} (inv : CxlShm.Heap.Inv a)
    (ready : mailReady a = true) :
    Stopped 1 (mailSite a) {134348800, 201392128} (mailRoots 134283264 134414336)
      ⟨[134217784], [134414336], []⟩ := by
  simp only [mailReady, Bool.and_eq_true, decide_eq_true_eq] at ready
  obtain ⟨⟨⟨⟨⟨-, first⟩, next⟩, -⟩, object⟩, object'⟩ := ready
  refine
    { exact := exact_mailed (by decide) (by decide) (by decide) fun i same => ?_
      alloc := ?_
      objects := ?_
      pages := ⟨first, by decide, next⟩
      senders := ⟨rfl, by decide, rfl⟩
      receivers := rfl
      held := ?_
      buffers := ?_
      indices := ?_ }
  · injection same with same
    omega
  · exact inv.unmarked_eq ▸ inv
  · intro o ho
    rcases Finset.mem_insert.1 ho with rfl | ho
    · exact object
    · obtain rfl := Finset.mem_singleton.1 ho
      exact object'
  · intro b _ used
    exact .inl (.inl (congrArg ObjLoc.root (of_decide_eq_true used)))
  · intro q hq i hi
    obtain rfl := List.mem_singleton.1 hq
    exact .inr ⟨i, hi, rfl⟩
  · intro q _
    exact ⟨by simp [mailSite, messageBufferSize], by simp [mailSite, messageBufferSize]⟩

/-- The object of the `RootRef` goes, and the message stays. -/
theorem recoveryReferences_collects_mail : ∃ s s' : Site, ∃ live' : Finset Offset,
    Ends (s.recoveryReferences 1) s' ∧
      Collected 1 s s' {134348800, 201392128} live' (mailRoots 134283264 134414336)
        ⟨[134217784], [134414336], []⟩ := by
  obtain ⟨a, inv, ready⟩ := exists_mailReady
  exact ⟨_, recoveryReferences_collects (stopped_mailSite inv ready)⟩

/-- The message is in the hands of the receiver. -/
theorem recoveryReferences_survivors_mail : ∃ s s' : Site, ∃ live' : Finset Offset,
    Ends (s.recoveryReferences 1) s' ∧
      Exact s'.world.heap live' (mailRoots 134283264 134414336) ∧ 201392128 ∈ live' := by
  obtain ⟨a, inv, ready⟩ := exists_mailReady
  obtain ⟨s', live', ends, exact, stays, -⟩ := recoveryReferences_survivors (stopped_mailSite inv ready)
  refine ⟨_, s', live', ends, exact, stays _ ?_⟩
  have loc : (mailSite a).world.heap.mem.loc (bufferSlot 134414336 0) = 201392128 := by
    simp [mailSite, mailed, bufferSlot]
  rw [← loc]
  refine .start ⟨.inr ⟨0, by decide, rfl⟩, ?_⟩ (by rw [loc]; decide)
  rintro (⟨b, -, used, eq⟩ | ⟨q, hq, i, hi, gone, eq⟩ | ⟨q, hq, -⟩)
  · injection eq with eq
    rw [of_decide_eq_true used] at eq
    exact absurd eq (by decide)
  · obtain rfl := List.mem_singleton.1 hq
    injection eq with eq
    obtain rfl : i = 0 := by omega
    rcases gone with nobody | landed
    · exact absurd nobody (by simp [mailSite])
    · exact landed (by simp [mailSite, MessageQueue.InFlight, messageBufferSize])
  · cases hq

end CxlShm.Cascade
