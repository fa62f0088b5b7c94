import CxlShm.Alloc.BinLists
import CxlShm.Release.Collection

/-!
# The collection of a client that exits

`normal_garbage_collection` drops the same references as the monitor would, but it frees with
`test_free` and `cxl_free`, and so it takes apart the pages and segments that it walks over.
-/

namespace CxlShm.Cascade

open Function Fuel Linked

variable {live live' : Finset Offset} {roots dropped : Set ObjLoc} {r : ObjLoc} {o b page : Offset}
  {t i : ℕ} {s₀ s s' : Site} {c : Belongings} {row kept rest : List Offset} {freed : Set Offset}

/-- Client `t` exits between two calls, when each of its `RootRef`s is a reference. -/
structure Exiting (t : ℕ) (s : Site) (live : Finset Offset) (roots : Set ObjLoc)
    (c : Belongings) : Prop extends Stopped t s live roots c where
  idle : s.alloc.call t = .idle
  normal : ∀ g, s.alloc.sasThreadId g ≠ t → (s.alloc.info g).state ≠ .potentialLeaking
  counted : ∀ b ∈ rootRefs c.pages, s.inUse b = true →
    .root b ∈ roots ∧ s.alloc.allocated b = some true

/-- `s` is `s₀` without the references in `dropped` and the `RootRef`s that are not in use any more;
the client still has the pages `row` of `RootRef`s. -/
structure Leaving (t : ℕ) (live live' : Finset Offset) (roots : Set ObjLoc) (c : Belongings)
    (row : List Offset) (s₀ : Site) (dropped : Set ObjLoc) (s : Site) : Prop where
  exact : Exact s.world.heap live' roots
  drops : Drops s₀.world.heap s.world.heap live live' dropped
  pushed : ∃ l, s.world.heap.freed = s₀.world.heap.freed ++ l ∧
    s.world.area.pushed = s₀.world.area.pushed ++ l.flatMap (s₀.alloc.recoveryCxlFreePush t)
  frees : CxlShm.Heap.Frees t s₀.alloc s.alloc
  allocated : ∀ b special, s.alloc.allocated b = some special ↔
    s₀.alloc.allocated b = some special ∧ (b ∈ live → b ∈ live') ∧
      (b ∈ rootRefs c.pages → s₀.inUse b = true → s.inUse b = true)
  row : s.alloc.Row (t, 0) row

/-! ## One reference -/

/-- Freeing objects as the client. -/
theorem foldlM_cxlFree {a₀ : CxlShm.Heap.State}
    (normal : ∀ g, a₀.sasThreadId g ≠ t → (a₀.info g).state ≠ .potentialLeaking) (l : List Offset) :
    ∀ a : Area, CxlShm.Heap.Frees t a₀ a.alloc → a.alloc.Row (t, 0) row → l.Nodup →
      (∀ o ∈ l, a.alloc.allocated o = some false) →
      ∃ a', l.foldlM (Area.cxlFree t) a = some a' ∧ CxlShm.Heap.Frees t a₀ a'.alloc ∧
        a'.alloc.Row (t, 0) row ∧
        (∀ b, a'.alloc.allocated b = if b ∈ l then none else a.alloc.allocated b) ∧
        a'.pushed = a.pushed ++ l.flatMap fun o =>
          if a₀.sasThreadId (segmentIndex o) ≠ t then [(segmentIndex o, o)] else [] := by
  induction l with
  | nil =>
    intro a frees row _ _
    exact ⟨a, rfl, frees, row, by simp, by simp⟩
  | cons o l ih =>
    intro a frees row nodup live
    obtain ⟨out, nodup⟩ := List.nodup_cons.1 nodup
    have object := live o List.mem_cons_self
    obtain ⟨alloc, run, allocated, frees', push, rows⟩ := frees.free object normal
    have row' := rows 0 (by decide) _ row
    rw [List.erase_of_not_mem (frees.inv.notMem_row (b := o) object row), ite_self] at row'
    have live' : ∀ x ∈ l, alloc.allocated x = some false := by
      intro x hx
      rw [allocated, update_of_ne (fun same : x = o => out (same ▸ hx))]
      exact live x (List.mem_cons_of_mem _ hx)
    obtain ⟨a', runs, frees'', row'', allocated', pushed⟩ :=
      ih ⟨alloc, a.pushed ++ a.alloc.cxlFreePush t o⟩ frees' row' nodup live'
    refine ⟨a', ?_, frees'', row'', fun b => ?_, ?_⟩
    · rw [List.foldlM_cons, Area.cxlFree, run]
      exact runs
    · rw [allocated', allocated]
      by_cases here : b = o
      · subst here
        simp [out]
      · simp [here]
    · rw [pushed, push, List.append_assoc, List.flatMap_cons]

/-- An object and where it lies. -/
theorem Stopped.push_object (stopped : Stopped t s live roots c) (ho : o ∈ live) :
    s.alloc.recoveryCxlFreePush t o =
      if s.alloc.sasThreadId (segmentIndex o) ≠ t then [(segmentIndex o, o)] else [] := by
  have same : s.alloc.segmentThreadId (segmentIndex o) = s.alloc.sasThreadId (segmentIndex o) :=
    (stopped.alloc.header_of_allocated (b := o) (stopped.objects o ho)).1
  simp only [CxlShm.Heap.State.recoveryCxlFreePush, same]

theorem Leaving.object (exiting : Exiting t s₀ live roots c)
    (d : Leaving t live live' roots c row s₀ dropped s) (ho : o ∈ live') :
    s.alloc.allocated o = some false := by
  have here := d.drops.shrinks ho
  refine (d.allocated o false).2 ⟨exiting.objects o here, fun _ => ho, ?_⟩
  rintro ⟨page, hp, hb⟩ -
  exact absurd (hb.cxlPtrPage_eq le_rfl (Nat.lt_add_of_pos_right (by decide)) ▸ hp)
    (exiting.object here).2

/-- `test_free` of a root. -/
theorem Leaving.testFree (exiting : Exiting t s₀ live roots c)
    (d : Leaving t live live' roots c row s₀ dropped s) (hr : r ∈ roots) :
    ∃ w live'', Ends (fun fuel => s.testFree t fuel r) { s with world := w } ∧
      Leaving t live live'' roots c row s₀ (dropped ∪ {r}) { s with world := w } := by
  obtain ⟨h', live'', ⟨k, counts⟩, exact', d'⟩ :=
    testFree_dropCounted t _ s.world.heap live' roots r rfl d.exact hr
  obtain ⟨l, freed, nodup, mem⟩ := d'.freed
  have object (o : Offset) (ho : o ∈ l) := d.object exiting ((mem o).1 ho).1
  obtain ⟨a', frees, frees', row', allocated, pushed⟩ :=
    foldlM_cxlFree exiting.normal l s.world.area d.frees d.row nodup object
  refine ⟨⟨h', a'⟩, live'', ⟨k, fun fuel enough => ?_⟩,
    ⟨exact', d.drops.trans d', ?pushed, frees', ?allocated, row'⟩⟩
  · obtain ⟨l', h₂, freed', rfl, runs⟩ := (follows_testFree t).testFree fuel rfl (counts fuel enough)
    rw [freed] at freed'
    obtain rfl := List.append_cancel_left freed'
    have run : s.world.testFree t fuel r = some ⟨h₂, a'⟩ := runs s.world.area a' frees
    exact congrArg (Option.map _) run
  case pushed =>
    obtain ⟨before, freed₀, pushed₀⟩ := d.pushed
    refine ⟨before ++ l, ?_, ?_⟩
    · rw [← List.append_assoc, ← freed₀]
      exact freed
    · have same : l.flatMap (s₀.alloc.recoveryCxlFreePush t) = l.flatMap fun o =>
          if s₀.alloc.sasThreadId (segmentIndex o) ≠ t then [(segmentIndex o, o)] else [] := by
        apply List.flatMap_congr
        intro o ho
        exact exiting.push_object (d.drops.shrinks ((mem o).1 ho).1)
      rw [List.flatMap_append, ← List.append_assoc, ← pushed₀, same]
      exact pushed
  case allocated =>
    intro b special
    have before := d.allocated b special
    have shrinks := @d'.shrinks b
    have gone := mem b
    rw [show (Site.alloc { s with world := ⟨h', a'⟩ }).allocated b = _ from allocated b]
    by_cases hb : b ∈ l
    · rw [if_pos hb]
      have inside := gone.1 hb
      have first := d.drops.shrinks inside.1
      simp [inside.2, first]
    · rw [if_neg hb]
      refine before.trans (and_congr_right fun _ => and_congr_left fun _ => ?_)
      exact ⟨fun stays here => by
        by_contra out
        exact hb (gone.2 ⟨stays here, out⟩), fun stays here => shrinks (stays here)⟩

/-- A root that is null already. -/
theorem Leaving.null (d : Leaving t live live' roots c row s₀ dropped s) (null : s.loc r = 0) :
    Leaving t live live' roots c row s₀ (dropped ∪ {r}) s := by
  obtain ⟨-, d'⟩ := d.exact.clear (r := r) fun _ => null
  rw [Heap.clear_of_null null] at d'
  exact { d with drops := d.drops.trans d' }

/-- The client can drop a reference. -/
theorem handles_testFree (exiting : Exiting t s₀ live roots c) (row : List Offset) :
    Handles roots (fun fuel s => s.testFree t fuel) fun dropped s =>
      ∃ live', Leaving t live live' roots c row s₀ dropped s where
  drop := by
    rintro dropped s r ⟨live', d⟩ root -
    obtain ⟨w, live'', ends, d'⟩ := d.testFree exiting root
    exact ⟨w, ends, live'', d'⟩
  null := by
    rintro dropped s r ⟨live', d⟩ null
    exact ⟨live', d.null null⟩
  sender := by
    rintro dropped s q ⟨live', d⟩
    have other : SegmentState.abandon ≠ .potentialLeaking := by decide
    have frees := d.frees.mark other (segmentIndex q)
    exact ⟨live', { d with frees := frees }⟩
  receiver := by
    rintro dropped s q ⟨live', d⟩
    exact ⟨live', { d with }⟩

/-! ## One `RootRef` -/

/-- A `RootRef` in use, in a page that the client has. -/
theorem Leaving.root (exiting : Exiting t s₀ live roots c)
    (d : Leaving t live live' roots c row s₀ dropped s) (mem : page ∈ row)
    (sub : ∀ p ∈ row, p ∈ c.pages) (hb : CxlShm.Heap.InPage page 0 b)
    (used₀ : s₀.inUse b = true) (used : s.inUse b = true) :
    cxlPtrPage b = page ∧ ObjLoc.root b ∈ roots ∧ s.alloc.allocated b = some true ∧
      s₀.alloc.sasThreadId (segmentIndex b) = t := by
  have inside : b ∈ rootRefs c.pages := ⟨page, sub page mem, hb⟩
  obtain ⟨root, allocated₀⟩ := exiting.counted b inside used₀
  have allocated : s.alloc.allocated b = some true := by
    refine (d.allocated b true).2 ⟨allocated₀, fun object => ?_, fun _ _ => used⟩
    have other := exiting.objects b object
    rw [allocated₀] at other
    cases other
  refine ⟨hb.cxlPtrPage_eq le_rfl (Nat.lt_add_of_pos_right (by decide)), root, allocated, ?_⟩
  have header₀ := (exiting.alloc.header_of_allocated (b := b) allocated₀).1
  have own := (exiting.rootPage (sub page mem)).2.2
  rw [← segmentIndex_of_inPage hb] at own
  exact header₀.symm.trans own

/-- `tbr->in_use = 0` and `cxl_free(true, tbr)`, after the reference has been dropped. -/
theorem Leaving.freeRoot (exiting : Exiting t s₀ live roots c)
    (d : Leaving t live live' roots c row s₀ dropped s) (mem : page ∈ row)
    (sub : ∀ p ∈ row, p ∈ c.pages) (hb : CxlShm.Heap.InPage page 0 b)
    (used₀ : s₀.inUse b = true) (used : s.inUse b = true)
    (gone : ObjLoc.root b ∈ dropped) :
    ∃ s', s.freeRoot t b = some s' ∧ s'.inUse = update s.inUse b false ∧ s'.queue = s.queue ∧
      s'.senderQueue = s.senderQueue ∧ s'.receiverQueue = s.receiverQueue ∧
      Leaving t live live' roots c (if s.alloc.used page = 1 then row.erase page else row) s₀
        dropped s' := by
  obtain ⟨at_page, -, live_b, own⟩ := d.root exiting mem sub hb used₀ used
  obtain ⟨alloc, run, allocated, frees, push, rows⟩ := d.frees.free live_b exiting.normal
  have row' := rows 0 (by decide) row d.row
  simp only [own, true_and, at_page] at row'
  have null : s.loc (.root b) = 0 := d.drops.cleared _ gone
  have same : s.world.heap.clear (.root b) = s.world.heap := Heap.clear_of_null null
  refine ⟨_, congrArg (Option.map _) run, rfl, rfl, rfl, rfl,
    ⟨?exact, ?drops, ?pushed, frees, ?allocated, row'⟩⟩
  case exact =>
    show Exact (s.world.heap.clear (.root b)) live' roots
    rw [same]
    exact d.exact
  case drops =>
    show Drops s₀.world.heap (s.world.heap.clear (.root b)) live live' dropped
    rw [same]
    exact d.drops
  case pushed =>
    obtain ⟨l, freed, pushed⟩ := d.pushed
    refine ⟨l, freed, ?_⟩
    rw [push, if_neg (not_not.2 own), List.append_nil]
    exact pushed
  case allocated =>
    intro x special
    show alloc.allocated x = some special ↔ _
    rw [allocated]
    by_cases here : x = b
    · subst here
      have inside : x ∈ rootRefs c.pages := ⟨page, sub page mem, hb⟩
      simp [inside, used₀]
    · rw [update_of_ne here, d.allocated]
      simp only [update_of_ne here]

/-- Both, for a `RootRef` in use. -/
theorem Leaving.dropRoot (exiting : Exiting t s₀ live roots c)
    (d : Leaving t live live' roots c row s₀ dropped s) (mem : page ∈ row)
    (sub : ∀ p ∈ row, p ∈ c.pages) (hb : CxlShm.Heap.InPage page 0 b)
    (used₀ : s₀.inUse b = true) (used : s.inUse b = true) :
    ∃ w s' live'', Ends (fun fuel => s.testFree t fuel (.root b)) { s with world := w } ∧
      Site.freeRoot t { s with world := w } b = some s' ∧ s'.inUse = update s.inUse b false ∧
      s'.queue = s.queue ∧ s'.senderQueue = s.senderQueue ∧ s'.receiverQueue = s.receiverQueue ∧
      Leaving t live live'' roots c (if w.area.alloc.used page = 1 then row.erase page else row) s₀
        (dropped ∪ {.root b}) s' ∧
      (w.area.alloc.used page = 1 → ∀ x, CxlShm.Heap.InPage page 0 x → x ≠ b → s₀.inUse x = true →
        s.inUse x = false) := by
  obtain ⟨-, root, -⟩ := d.root exiting mem sub hb used₀ used
  obtain ⟨w, live'', ends, d'⟩ := d.testFree exiting root
  obtain ⟨at_page, -, live_b, -⟩ := d'.root exiting mem sub hb used₀ used
  obtain ⟨s', run, inUse, queue, senders, receivers, d''⟩ :=
    d'.freeRoot exiting mem sub hb used₀ used (.inr rfl)
  refine ⟨w, s', live'', ends, run, inUse, queue, senders, receivers, d'',
    fun last x hx other used₀' => ?_⟩
  by_contra used'
  obtain ⟨at_page', -, live_x, -⟩ := d'.root exiting mem sub hx used₀' (Bool.not_eq_false _ ▸ used')
  exact other (d'.frees.inv.allocated_of_used (b := b) live_b (by rw [at_page]; exact last) live_x
    (at_page'.trans at_page.symm))

/-! ## The pages of `RootRef`s -/

/-- The blocks of a page from number `j` on. -/
def blocksFromIndex (page : Offset) (j : ℕ) : Set Offset :=
  {b | ∃ k, j ≤ k ∧ k < pageSize / 16 ∧ b = cxlPageStart page + 16 * k}

theorem blocksFromIndex_succ {j : ℕ} (more : j < pageSize / 16) :
    blocksFromIndex page j = {cxlPageStart page + 16 * j} ∪ blocksFromIndex page (j + 1) := by
  ext b
  constructor
  · rintro ⟨k, low, high, rfl⟩
    rcases Nat.eq_or_lt_of_le low with rfl | next
    · exact .inl rfl
    · exact .inr ⟨k, next, high, rfl⟩
  · rintro (rfl | ⟨k, low, high, rfl⟩)
    · exact ⟨j, le_rfl, more, rfl⟩
    · exact ⟨k, Nat.le_of_succ_le low, high, rfl⟩

theorem blocksFromIndex_end : blocksFromIndex page (pageSize / 16) = ∅ := by
  ext b
  simp only [blocksFromIndex, Set.mem_ofPred_eq, Set.mem_empty_iff_false, iff_false]
  rintro ⟨k, low, high, -⟩
  exact absurd high (Nat.not_lt.2 low)

/-- The loop over the blocks of a page from number `j` on: it may end at a block after which none is
in use, and then the page is gone. -/
theorem Progress.normalRoots (exiting : Exiting t s₀ live roots c) (mem : page ∈ row)
    (sub : ∀ p ∈ row, p ∈ c.pages) (m : ℕ) : ∀ {j : ℕ} {freed : Set Offset} {s : Site},
      j + m = pageSize / 16 →
      Progress (fun dropped s => ∃ live', Leaving t live live' roots c row s₀ dropped s) ∅ freed [] []
        s₀ s →
      ∃ s' row', (∃ k, ∀ fuel ≥ k, ∀ n ≥ k, Site.normalRoots t page
          (cxlPageStart page + (pageSize / 16 - 1) * 16) fuel n (cxlPageStart page + 16 * j) s =
            some s') ∧
        (row' = row ∨ row' = row.erase page) ∧
        Progress (fun dropped s => ∃ live', Leaving t live live' roots c row' s₀ dropped s) ∅
          (freed ∪ blocksFromIndex page j) [] [] s₀ s' := by
  induction m with
  | zero =>
    intro j freed s last p
    obtain rfl : j = pageSize / 16 := last
    refine ⟨s, row, ⟨1, fun fuel _ n enough => ?_⟩, .inl rfl, ?_⟩
    · obtain ⟨n, rfl⟩ := Nat.exists_eq_add_of_le' enough
      exact if_neg (Nat.not_le.2 (Nat.add_lt_add_left (by decide) _))
    · rw [blocksFromIndex_end, Set.union_empty]
      exact p
  | succ m ih =>
    intro j freed s last p
    have more : j < pageSize / 16 := by omega
    obtain ⟨live', d⟩ := p.done
    obtain ⟨isPage, size, -⟩ := d.frees.inv.page_of_row (k := 0) d.row (by decide) mem
    have hb : CxlShm.Heap.InPage page 0 (cxlPageStart page + 16 * j) := ⟨isPage, j, more, rfl⟩
    obtain ⟨b, b_eq⟩ : ∃ b, b = cxlPageStart page + 16 * j := ⟨_, rfl⟩
    have below : b ≤ cxlPageStart page + (pageSize / 16 - 1) * 16 := by omega
    have next : b + s.alloc.blockSize page = cxlPageStart page + 16 * (j + 1) := by
      rw [show s.alloc.blockSize page = 16 from size]
      omega
    rw [blocksFromIndex_succ more, ← Set.union_assoc, ← b_eq]
    rw [← b_eq] at hb
    by_cases used : s.inUse b = true
    case neg =>
      have unused : ∀ x ∈ ({b} : Set Offset), s.inUse x = false := by
        rintro x rfl
        exact Bool.eq_false_iff.2 used
      obtain ⟨s', row', ⟨k, ends⟩, rows, p'⟩ := ih (j := j + 1) (by omega) (p.unused unused)
      refine ⟨s', row', ⟨k + 1, fun fuel enough n enough' => ?_⟩, rows, p'⟩
      obtain ⟨n, rfl⟩ := Nat.exists_eq_add_of_le' (Nat.one_le_of_lt enough')
      rw [Site.normalRoots, if_pos below, if_neg used, next]
      exact ends fuel (by omega) n (by omega)
    case pos =>
      obtain ⟨used₀, -⟩ := p.root_notMem used
      rw [Set.union_empty] at d
      obtain ⟨w, s₁, live'', ⟨k₁, drops⟩, run, inUse, queue, senders, receivers, d', others⟩ :=
        d.dropRoot exiting mem sub hb used₀ used
      have p' : Progress (fun dropped s => ∃ live', Leaving t live live' roots c
          (if w.area.alloc.used page = 1 then row.erase page else row) s₀ dropped s) ∅ (freed ∪ {b})
          [] [] s₀ s₁ := p.free used ⟨live'', d'⟩ inUse queue senders receivers
      have turns {n : ℕ} {s' : Option Site} (fuel : ℕ) (enough : fuel ≥ k₁)
          (rest : (if w.area.alloc.used page = 1 then some s₁ else Site.normalRoots t page
            (cxlPageStart page + (pageSize / 16 - 1) * 16) fuel n
            (cxlPageStart page + 16 * (j + 1)) s₁) = s') :
          Site.normalRoots t page (cxlPageStart page + (pageSize / 16 - 1) * 16) fuel (n + 1) b s =
            s' := by
        have drop : s.testFree t fuel (.root b) = some { s with world := w } := drops fuel enough
        rw [Site.normalRoots, if_pos below, if_pos used, drop, Option.bind_some, run,
          Option.bind_some, next]
        exact rest
      by_cases final : w.area.alloc.used page = 1
      · rw [if_pos final] at p'
        refine ⟨s₁, row.erase page, ⟨k₁ + 1, fun fuel enough n enough' => ?_⟩, .inr rfl, p'.unused ?_⟩
        · obtain ⟨n, rfl⟩ := Nat.exists_eq_add_of_le' (Nat.one_le_of_lt enough')
          exact turns fuel (by omega) (if_pos final)
        · rintro x ⟨i, low, high, rfl⟩
          by_contra used'
          rw [Bool.not_eq_false, inUse] at used'
          by_cases here : cxlPageStart page + 16 * i = b
          · rw [here, update_self] at used'
            cases used'
          · rw [update_of_ne here] at used'
            have unused := others final _ ⟨isPage, i, high, rfl⟩ here ((p.inUse _).1 used').1
            exact absurd (used'.symm.trans unused) (by decide)
      · rw [if_neg final] at p'
        obtain ⟨s', row', ⟨k, ends⟩, rows, p''⟩ := ih (j := j + 1) (by omega) p'
        refine ⟨s', row', ⟨max k k₁ + 1, fun fuel enough n enough' => ?_⟩, rows, p''⟩
        obtain ⟨n, rfl⟩ := Nat.exists_eq_add_of_le' (Nat.one_le_of_lt enough')
        exact turns fuel (by omega) ((if_neg final).trans (ends fuel (by omega) n (by omega)))

/-- The round for a page of `RootRef`s. -/
theorem Progress.normalRootPage (exiting : Exiting t s₀ live roots c) (mem : page ∈ row)
    (sub : ∀ p ∈ row, p ∈ c.pages)
    (p : Progress (fun dropped s => ∃ live', Leaving t live live' roots c row s₀ dropped s) ∅ freed
      [] [] s₀ s) :
    ∃ s' row', Ends (fun fuel => s.normalRootPage t fuel page) s' ∧
      (row' = row ∨ row' = row.erase page) ∧
      Progress (fun dropped s => ∃ live', Leaving t live live' roots c row' s₀ dropped s) ∅
        (freed ∪ {b | CxlShm.Heap.InPage page 0 b}) [] [] s₀ s' := by
  obtain ⟨live', d⟩ := p.done
  obtain ⟨isPage, size, -⟩ := d.frees.inv.page_of_row (k := 0) d.row (by decide) mem
  have bs : s.alloc.blockSize page = 16 := size
  obtain ⟨s', row', ⟨k, ends⟩, rows, p'⟩ :=
    p.normalRoots exiting mem sub (pageSize / 16) (j := 0) (Nat.zero_add _)
  have blocks : blocksFromIndex page 0 = {b | CxlShm.Heap.InPage page 0 b} := by
    ext b
    constructor
    · rintro ⟨i, -, high, rfl⟩
      exact ⟨isPage, i, high, rfl⟩
    · rintro ⟨-, i, high, rfl⟩
      exact ⟨i, Nat.zero_le i, high, rfl⟩
  rw [blocks] at p'
  refine ⟨s', row', ⟨k, fun fuel enough => ?_⟩, rows, p'⟩
  have run := ends fuel enough fuel enough
  rw [Nat.mul_zero, Nat.add_zero] at run
  simpa only [Site.normalRootPage, bs] using run

/-- All pages of `RootRef`s. -/
theorem Exiting.normalRootPages (exiting : Exiting t s₀ live roots c) :
    ∃ s row, Ends (fun fuel => walk (fun s page => s.alloc.next page) 0
        (Site.normalRootPage t fuel) fuel (s₀.alloc.first (t, 0)) s₀) s ∧
      Progress (fun dropped s => ∃ live', Leaving t live live' roots c row s₀ dropped s) ∅
        (rootRefs c.pages) [] [] s₀ s := by
  have row₀ : s₀.alloc.Row (t, 0) c.pages := by
    obtain ⟨home, place, pages, -⟩ := exiting.alloc
    obtain ⟨l, row, -⟩ := pages.queues.exists_row (t, 0)
    exact exiting.pages.unique row.1 ▸ row
  have start : Leaving t live live roots c c.pages s₀ ∅ s₀ :=
    ⟨exiting.exact, .refl _ _, ⟨[], by simp⟩, .refl exiting.alloc exiting.idle,
      fun b special => by simp, row₀⟩
  have parts {done kept rest : List Offset} (split : c.pages = done ++ rest)
      (sub : ∀ p ∈ kept, p ∈ done) (p : Offset) (hp : p ∈ kept ++ rest) : p ∈ c.pages := by
    rw [split]
    exact (List.mem_append.1 hp).elim (fun old => List.mem_append_left _ (sub p old))
      (List.mem_append_right _)
  have walks : ∃ s, Ends (fun fuel => walk (fun s page => s.alloc.next page) 0
      (Site.normalRootPage t fuel) fuel (s₀.alloc.first (t, 0)) s₀) s ∧
      ∃ kept, (∀ p ∈ kept, p ∈ c.pages) ∧ ∀ rest, c.pages = c.pages ++ rest →
        Progress (fun dropped s => ∃ live', Leaving t live live' roots c (kept ++ rest) s₀ dropped s) ∅
          (rootRefs c.pages) [] [] s₀ s := by
    refine ends_walk (P := fun done s =>
      ∃ kept, (∀ p ∈ kept, p ∈ done) ∧ ∀ rest, c.pages = done ++ rest →
        Progress (fun dropped s => ∃ live', Leaving t live live' roots c (kept ++ rest) s₀ dropped s) ∅
          (rootRefs done) [] [] s₀ s) exiting.pages ?start ?links ?step
    case start =>
      refine ⟨[], by simp, ?_⟩
      rintro rest rfl
      exact rootRefs_nil ▸ .start ⟨live, start⟩
    case links =>
      rintro done page rest s split ⟨kept, -, p⟩
      obtain ⟨live', d⟩ := (p _ split).done
      have chain := exiting.pages
      rw [split] at chain
      exact d.row.1.next_eq.trans chain.next_eq.symm
    case step =>
      rintro done page rest s split ⟨kept, sub, p⟩
      obtain ⟨s', row, ends, rows, p'⟩ := (p _ split).normalRootPage exiting
        (List.mem_append_right kept List.mem_cons_self) (parts split sub)
      refine ⟨s', ends, ?_⟩
      have rest_eq {others : List Offset} (again : c.pages = done ++ [page] ++ others) :
          others = rest := by
        rw [split, List.append_assoc] at again
        exact (List.cons.inj (List.append_cancel_left again)).2.symm
      have new : page ∉ kept := fun old => (exiting.between split).2.2 (sub page old)
      rcases rows with rfl | rfl
      · refine ⟨kept ++ [page], ?_, fun others again => ?_⟩
        · intro x hx
          simp only [List.mem_append] at hx ⊢
          exact hx.imp_left (sub x)
        · rw [rest_eq again, rootRefs_append_singleton, List.append_assoc]
          exact p'
      · refine ⟨kept, fun x hx => List.mem_append_left _ (sub x hx), fun others again => ?_⟩
        rw [List.erase_append_right _ new, List.erase_cons_head] at p'
        rw [rest_eq again, rootRefs_append_singleton]
        exact p'
  obtain ⟨s, ends, kept, -, p⟩ := walks
  have p := p [] (List.append_nil _).symm
  rw [List.append_nil] at p
  exact ⟨s, kept, ends, p⟩

/-! ## The whole collection -/

/-- The collection of a client that exits ends and has done what the monitor's would have done for
the objects; what is allocated then is what was, but for the objects that are gone and the client's
`RootRef`s. -/
theorem normalReferences_collects (exiting : Exiting t s live roots c) :
    ∃ s' live', Ends (s.normalReferences t) s' ∧ Collected t s s' live live' roots c ∧
      CxlShm.Heap.Inv s'.alloc.unmarked ∧
      ∀ b special, s'.alloc.allocated b = some special ↔ s.alloc.allocated b = some special ∧
        (b ∈ live → b ∈ live') ∧ (b ∈ rootRefs c.pages → s.inUse b = false) := by
  obtain ⟨s₁, row, ends₁, p₁⟩ := exiting.normalRootPages
  obtain ⟨s₂, ends₂, p₂⟩ := p₁.queues exiting.toStopped (handles_testFree exiting row)
  obtain ⟨live', d⟩ := p₂.done
  have collected : Collected t s s₂ live live' roots c :=
    collected_of_drops exiting.toStopped (.refl d.exact.era) d.exact d.drops d.pushed p₂.inUse
      p₂.queue
  refine ⟨s₂, live', ends₁.bind ends₂, collected, d.frees.inv, fun b special => ?_⟩
  rw [d.allocated]
  refine and_congr_right fun _ => and_congr_right fun _ => imp_congr_right fun inside => ?_
  constructor
  · intro stays
    by_contra used
    exact ((p₂.inUse b).1 (stays (Bool.not_eq_false _ ▸ used))).2 inside
  · intro unused used
    rw [unused] at used
    cases used

theorem exiting_mailSite {a : CxlShm.Heap.State} (inv : CxlShm.Heap.Inv a)
    (ready : mailReady a = true) :
    Exiting 1 (mailSite a) {134348800, 201392128} (mailRoots 134283264 134414336)
      ⟨[134217784], [134414336], []⟩ := by
  refine { stopped_mailSite inv ready with idle := ?_, normal := ?_, counted := ?_ }
  all_goals simp only [mailReady, Bool.and_eq_true, decide_eq_true_eq] at ready
  · exact ready.1.1.1.1.1
  · obtain ⟨home, place, -, blocks⟩ := inv
    intro g _ leaking
    have normal : (a.info g).state = .normal := blocks.normal g
    exact absurd (normal.symm.trans leaking) (by decide)
  · intro b _ used
    obtain rfl : b = 134283264 := of_decide_eq_true used
    exact ⟨.inl rfl, ready.1.1.2⟩

/-- The client of the message exits: its page of `RootRef`s has lost its only block. -/
theorem normalReferences_collects_mail : ∃ s s' : Site, ∃ live' : Finset Offset,
    Ends (s.normalReferences 1) s' ∧
      Collected 1 s s' {134348800, 201392128} live' (mailRoots 134283264 134414336)
        ⟨[134217784], [134414336], []⟩ ∧ s'.alloc.allocated 134283264 = none := by
  obtain ⟨a, inv, ready⟩ := exists_mailReady
  obtain ⟨s', live', ends, collected, -, allocated⟩ :=
    normalReferences_collects (exiting_mailSite inv ready)
  refine ⟨_, s', live', ends, collected, Option.eq_none_iff_forall_ne_some.2 fun special live => ?_⟩
  have inside : (134283264 : Offset) ∈ rootRefs [134217784] := by
    exact ⟨134217784, List.mem_singleton_self _, ⟨0, 1, le_rfl, by decide, rfl⟩, 0, by decide,
      by decide⟩
  have unused := ((allocated _ special).1 live).2.2 inside
  exact absurd unused (by simp [mailSite])

end CxlShm.Cascade
