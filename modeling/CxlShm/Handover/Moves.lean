import CxlShm.Handover.Places

/-!
# The moves of blocks

What each access does to the places of the blocks: most of them move no block or one; a stack as a
whole moves when the owner takes the chain of the segment or merges the two lists of a page, a page
is filled or emptied, and a client that goes takes what it had with it.
-/

namespace CxlShm.Handover

open Linked Function Heap

/-- Where the block is when client `t` has gone, who owned the segment or did not. -/
def Place.gone (t : ℕ) (owner : Bool) : Place → Place
  | .listed (.free page) => if owner then .outside else .listed (.free page)
  | .listed (.localFree page) => if owner then .outside else .listed (.localFree page)
  | .listed .detached => if owner then .lost else .listed .detached
  | .held o => if o = some t then .lost else .held o
  | .listed .threadFree => .listed .threadFree
  | .outside => .outside
  | .object => .object
  | .root u => .root u
  | .lost => .lost

section Gone

variable {t u : ℕ} {owner : Bool} {p : Place} {o : Option ℕ}

@[simp] theorem gone_eq_object : p.gone t owner = .object ↔ p = .object := by
  rcases p with _ | (_ | _ | _ | _) | o | _ | _ | _ <;> simp [Place.gone] <;> split <;> simp

@[simp] theorem gone_eq_root : p.gone t owner = .root u ↔ p = .root u := by
  rcases p with _ | (_ | _ | _ | _) | o | _ | _ | _ <;> simp [Place.gone] <;> split <;> simp

theorem gone_eq_held : p.gone t owner = .held o ↔ p = .held o ∧ o ≠ some t := by
  rcases p with _ | (_ | _ | _ | _) | o' | _ | _ | _ <;> simp [Place.gone]
  · split <;> simp
  · split <;> simp
  · split <;> simp
  · by_cases same : o' = some t
    · simp only [if_pos same, reduceCtorEq, false_iff, not_and, not_not]
      rintro rfl
      exact same
    · simp only [if_neg same, Place.held.injEq]
      constructor
      · rintro rfl
        exact ⟨rfl, same⟩
      · exact And.left

theorem gone_eq_listed {q : Stack} (h : p.gone t owner = .listed q) : p = .listed q := by
  rcases p with _ | (_ | _ | _ | _) | o | _ | _ | _ <;> cases owner <;> simp [Place.gone] at h ⊢ <;>
    first
    | exact h
    | (split at h <;> cases h)

theorem inside_of_gone (h : p.gone t owner ≠ .outside) : p ≠ .outside := by
  rintro rfl
  exact h rfl

theorem counted_of_gone (h : (p.gone t owner).Counted) : p.Counted := by
  rcases p with _ | (_ | _ | _ | _) | o | _ | _ | _ <;> cases owner <;>
    simp [Place.gone, Place.Counted] at h ⊢

theorem stack_gone_false : (p.gone t false).stack = p.stack := by
  rcases p with _ | (_ | _ | _ | _) | o | _ | _ | _ <;> simp [Place.gone]
  split <;> rfl

theorem stack_gone_true :
    (p.gone t true).stack = if p.stack = some .threadFree then some .threadFree else none := by
  rcases p with _ | (_ | _ | _ | _) | o | _ | _ | _ <;> simp [Place.gone]
  split <;> rfl

end Gone

namespace Places

variable {place place' : Offset → Place} {s s' : State} {t i page : ℕ} {b : Offset} {o : Option ℕ}

/-- Nothing but the next access of a client changes. -/
theorem setPc {p : Pc} (h : Places place s) (held : p.held = (s.pc t).held)
    (tail : p.tail = (s.pc t).tail) (linked : ∀ b x, p.linked = some (b, x) → s.blockNext b = x) :
    Places place (s.setPc t p) := by
  refine h.frame (heads_setPc s tail) (fun _ _ _ => rfl) rfl rfl (held_setPc_same s held) h.live ?_ rfl
    rfl id
  intro o b x at_cas
  rw [linked_setPc] at at_cas
  by_cases same : o = some t
  · subst same
    rw [update_self] at at_cas
    exact linked b x at_cas
  · rw [update_of_ne same] at at_cas
    exact h.ready o b x at_cas

theorem setMonitor {m : Monitor} (h : Places place s) (held : m.held = s.monitor.held)
    (linked : ∀ b x, m.linked = some (b, x) → s.blockNext b = x) :
    Places place (s.setMonitor m) := by
  refine h.frame rfl (fun _ _ _ => rfl) rfl rfl (held_setMonitor_same s held) h.live ?_ rfl rfl id
  intro o b x at_cas
  rw [linked_setMonitor] at at_cas
  by_cases same : o = none
  · subst same
    rw [update_self] at at_cas
    exact linked b x at_cas
  · rw [update_of_ne same] at at_cas
    exact h.ready o b x at_cas

/-- Nothing is in the segment. -/
theorem blank_of (outside : ∀ b, place b = .outside) (heads : ∀ q, s.heads q = 0)
    (object : ∀ b, s.object b = false) (rootOf : ∀ b, s.rootOf b = none)
    (held : ∀ o, s.held o = none) : Places place s := by
  refine ⟨?_, ?_, ?_, ?_, ?_, ?_, ?_, ?_, ?_, fun _ => outside⟩
  · intro q
    exact ⟨[], by simp [heads q], by simp [outside]⟩
  · intro b inside
    exact absurd (outside b) inside
  · intro b q listed
    simp [outside] at listed
  · simp [object, outside]
  · simp [rootOf, outside]
  · simp [held, outside]
  · intro b at_b
    simp [outside] at at_b
  · intro o b x at_cas
    have in_hand := State.linked_held at_cas
    simp [held] at in_hand
  · intro b counted
    rw [outside] at counted
    exact counted.elim

/-- In a segment that nothing is in, nobody has anything. -/
theorem blank_heads (h : Places place s) (outside : ∀ b, place b = .outside) (q : Stack) :
    s.heads q = 0 :=
  h.lists.head_eq_null.2 fun b => by simp [outside]

theorem blank_held (h : Places place s) (outside : ∀ b, place b = .outside) (o : Option ℕ) :
    s.held o = none := by
  rw [Option.eq_none_iff_forall_ne_some]
  intro b in_hand
  have at_b := (h.held o b).1 in_hand
  simp [outside] at at_b

theorem blank_object (h : Places place s) (outside : ∀ b, place b = .outside) (b : Offset) :
    s.object b = false := by
  rw [← Bool.not_eq_true, h.object, outside]
  simp

theorem blank_rootOf (h : Places place s) (outside : ∀ b, place b = .outside) (b : Offset) :
    s.rootOf b = none := by
  rw [Option.eq_none_iff_forall_ne_some]
  intro u mine
  have at_b := (h.root b u).1 mine
  simp [outside] at at_b

/-- The cells of one stack go to another one, which is empty. -/
theorem moveStack (h : Places place s) (q q' : Stack) (different : q ≠ q') (empty : s.heads q' = 0)
    (heads : s'.heads = update (update s.heads q' (s.heads q)) q 0)
    (blockNext : s'.blockNext = s.blockNext) (refInfo : s'.refInfo = s.refInfo)
    (object : s'.object = s.object) (rootOf : s'.rootOf = s.rootOf) (held : s'.held = s.held)
    (ready : ∀ o b x, s'.linked o = some (b, x) → s'.blockNext b = x)
    (bornIn : s'.bornIn = s.bornIn) (generation : s'.generation = s.generation)
    (header : s'.segmentThreadId = s.segmentThreadId) (fits : ∀ b, q.Fits b → q'.Fits b)
    (counted : (Place.listed q').Counted → (Place.listed q).Counted) :
    Places (fun b => if (place b).stack = some q then .listed q' else place b) s' := by
  refine ⟨?_, ?_, ?_, ?_, ?_, ?_, ?_, ready, ?_, ?_⟩
  · rw [heads, blockNext]
    convert h.lists.move different empty using 1
    funext b
    split <;> simp
  · intro b
    split
    · next listed => exact fun _ => h.nonzero b (by simp [stack_eq_some.1 listed])
    · exact h.nonzero b
  · intro b r
    split
    · next listed =>
      rintro ⟨⟩
      exact fits b (h.fits b q (stack_eq_some.1 listed))
    · exact h.fits b r
  · intro b
    rw [object, h.object]
    split
    · next listed => simp [stack_eq_some.1 listed]
    · exact Iff.rfl
  · intro b u
    rw [rootOf, h.root]
    split
    · next listed => simp [stack_eq_some.1 listed]
    · exact Iff.rfl
  · intro o b
    rw [held, h.held]
    split
    · next listed => simp [stack_eq_some.1 listed]
    · exact Iff.rfl
  · intro b
    rw [refInfo]
    split
    · rintro ⟨⟩
    · exact h.live b
  · intro b
    rw [bornIn, generation]
    split
    · next listed =>
      intro count
      apply h.born
      rw [stack_eq_some.1 listed]
      exact counted count
    · exact h.born b
  · intro none b
    rw [header] at none
    rw [h.blank none b]
    simp

/-- Client `t` goes: its slot is no longer that of a running client. -/
theorem gone {slot : Slot} (h : Places place s) (t : ℕ) (pages : ℕ → ℕ → List ℕ)
    (freePage : ℕ → List ℕ) (other : slot ≠ .running) :
    Places (fun b => (place b).gone t (s.segmentThreadId = t))
      ({ s with slot := update s.slot t slot, pages := pages, freePage := freePage }.setPc t .idle) := by
  obtain ⟨s', s'_eq⟩ : ∃ s', s' =
    ({ s with slot := update s.slot t slot, pages := pages, freePage := freePage } : State) := ⟨_, rfl⟩
  rw [← s'_eq]
  have held : (s'.setPc t .idle).held = update s.held (some t) none := by
    rw [held_setPc, s'_eq]
    rfl
  refine ⟨?_, ?_, ?_, ?_, ?_, ?_, ?_, ?_, ?_, ?_⟩
  · by_cases owner : s.segmentThreadId = t
    · have not_kept : ¬ (s'.setPc t .idle).Kept := by
        subst s'_eq
        show update s.slot t slot s.segmentThreadId ≠ .running
        rwa [owner, update_self]
      have tail : (s'.setPc t .idle).tail = 0 := by
        subst s'_eq
        show (update s.pc t .idle s.segmentThreadId).tail = 0
        rw [owner, update_self]
        rfl
      rw [heads_of_not_kept not_kept, tail]
      simp only [owner, decide_true, stack_gone_true]
      have next : (s'.setPc t .idle).blockNext = s.blockNext := by rw [s'_eq]; rfl
      have chain : (s'.setPc t .idle).chain = s.heads .threadFree := by
        rw [s'_eq]
        unfold State.heads
        split <;> rfl
      intro q
      cases q with
      | threadFree =>
        obtain ⟨l, list, mem⟩ := h.lists .threadFree
        refine ⟨l, ?_, ?_⟩
        · rw [next]
          show Chain s.blockNext 0 (s'.setPc t .idle).chain l
          rw [chain]
          exact list
        · intro x
          rw [mem]
          by_cases here : (place x).stack = some .threadFree <;> simp [here]
      | free page | localFree page | detached =>
        refine ⟨[], by simp [heads], ?_⟩
        intro x
        by_cases here : (place x).stack = some .threadFree <;> simp [here]
    · have heads : (s'.setPc t .idle).heads = s.heads := by
        have kept : (s'.setPc t .idle).Kept ↔ s.Kept := by
          subst s'_eq
          show update s.slot t slot s.segmentThreadId = .running ↔ _
          rw [update_of_ne owner]
          rfl
        have tail : (s'.setPc t .idle).tail = s.tail := by
          subst s'_eq
          show (update s.pc t .idle s.segmentThreadId).tail = _
          rw [update_of_ne owner]
          rfl
        unfold State.heads
        simp only [kept, tail]
        rw [s'_eq]
        rfl
      simp only [owner, decide_false, stack_gone_false]
      rw [heads, s'_eq]
      exact h.lists
  · intro b inside
    exact h.nonzero b (inside_of_gone inside)
  · intro b q listed
    exact h.fits b q (gone_eq_listed listed)
  · intro b
    rw [gone_eq_object, ← h.object, s'_eq]
    rfl
  · intro b u
    rw [gone_eq_root, ← h.root, s'_eq]
    rfl
  · intro o b
    rw [gone_eq_held, held]
    by_cases same : o = some t
    · rw [same, update_self]
      simp
    · rw [update_of_ne same, h.held]
      simp [same]
  · intro b at_b
    rw [gone_eq_object] at at_b
    rw [s'_eq]
    exact h.live b at_b
  · intro o b x at_cas
    rw [linked_setPc] at at_cas
    have other : o ≠ some t := by
      rintro rfl
      simp [Pc.linked] at at_cas
    rw [update_of_ne other] at at_cas
    rw [s'_eq] at at_cas ⊢
    exact h.ready o b x at_cas
  · intro b counted
    rw [s'_eq]
    exact h.born b (counted_of_gone counted)
  · intro none b
    rw [s'_eq] at none
    rw [h.blank none b]
    rfl

/-- A page that nothing is in is cut into blocks. -/
theorem initPage {stale : ℕ} {used : ℕ} {freePage : ℕ → List ℕ} (h : Places place s) (kept : s.Kept)
    (owned : s.segmentThreadId ≠ 0) (idle : s.pc t = .idle)
    (isPage : IsPage page) (bin : i < cxlBinSize) (unused : ∀ b, cxlPtrPage b = page → place b = .outside) :
    Places (fun b => if b ∈ blocksFrom (initBlockSize i) (pageSize / initBlockSize i) (cxlPageStart page)
        then .listed (.free page) else place b)
      ({ s.initPage i page stale with freePage := freePage, segmentUsed := used }.setPc t
        (.pushPage i page)) := by
  have pos := initBlockSize_pos bin
  have fits := initBlockSize_le bin
  have header := headerBytes_le bin
  have size : pageSize = 65536 := rfl
  obtain ⟨n, count⟩ : ∃ n, pageSize / initBlockSize i = n + 1 := by
    have some : 0 < pageSize / initBlockSize i := Nat.div_pos (by omega) pos
    exact ⟨pageSize / initBlockSize i - 1, by omega⟩
  have inPage : ∀ b, b ∈ blocksFrom (initBlockSize i) (n + 1) (cxlPageStart page) ↔
      InPage page i b := by
    intro b
    rw [mem_blocksFrom, ← count]
    exact ⟨fun at_index => ⟨isPage, at_index⟩, fun inPage => inPage.at_index⟩
  have home_in : ∀ b, InPage page i b → cxlPtrPage b = page := fun b inPage =>
    inPage.cxlPtrPage_eq le_rfl (by omega)
  have fresh : ∀ b ∈ blocksFrom (initBlockSize i) (n + 1) (cxlPageStart page), place b = .outside :=
    fun b mem => unused b (home_in b ((inPage b).1 mem))
  have elsewhere : ∀ b : ℕ, place b ≠ .outside →
      b < cxlPageStart page ∨ cxlPageStart page + (n + 1) * initBlockSize i ≤ b := by
    intro b inside
    by_contra between
    have whole : (n + 1) * initBlockSize i ≤ pageSize := by
      rw [← count]
      exact Nat.div_mul_le_self _ _
    apply inside
    apply unused
    have there : b = cxlPageStart page + (b - cxlPageStart page) := by omega
    rw [there]
    exact isPage.cxlPtrPage_add (by omega)
  have empty_free : s.free page = 0 := by
    have head : s.heads (.free page) = 0 := by
      refine h.lists.head_eq_null.2 fun b listed => ?_
      rw [stack_eq_some] at listed
      rw [unused b (h.fits b _ listed)] at listed
      cases listed
    rwa [heads_of_kept kept] at head
  have empty_local : s.localFree page = 0 := by
    have head : s.heads (.localFree page) = 0 := by
      refine h.lists.head_eq_null.2 fun b listed => ?_
      rw [stack_eq_some] at listed
      rw [unused b (h.fits b _ listed)] at listed
      cases listed
    rwa [heads_of_kept kept] at head
  obtain ⟨s', s'_eq⟩ : ∃ s', s' = ({ s.initPage i page stale with
    freePage := freePage, segmentUsed := used }.setPc t (.pushPage i page) : State) := ⟨_, rfl⟩
  rw [← s'_eq]
  have next : s'.blockNext = update (Heap.State.linkBlocks (initBlockSize i) (headerBytes i) n
      (cxlPageStart page) s.blockNext) (cxlPageStart page + n * initBlockSize i) 0 := by
    subst s'_eq
    show update (Heap.State.linkBlocks (initBlockSize i) _ (pageSize / initBlockSize i - 1) _ _)
      (_ + (pageSize / initBlockSize i - 1) * _) (s.free page) = _
    rw [count, Nat.add_sub_cancel, empty_free]
    rfl
  have outside_page : ∀ b : ℕ, place b ≠ .outside → s'.blockNext b = s.blockNext b := by
    intro b inside
    have apart := elsewhere b inside
    have last : b ≠ cxlPageStart page + n * initBlockSize i := by
      rw [Nat.add_mul, Nat.one_mul] at apart
      omega
    rw [next, update_of_ne last, linkBlocks_of_outside header pos apart]
  have heads : s'.heads = update s.heads (.free page) (cxlPageStart page) := by
    have kept' : s'.Kept := by rw [s'_eq]; exact kept
    have tail : s'.tail = s.tail := by
      rw [s'_eq, tail_setPc]
      · rfl
      · show (Pc.pushPage i page).tail = (s.pc t).tail
        rw [idle]
        rfl
    have localFree : s'.localFree = s.localFree := by
      rw [s'_eq]
      show update s.localFree page 0 = s.localFree
      rw [← empty_local, update_eq_self]
    rw [heads_of_kept kept', heads_of_kept kept, tail, localFree, ← heads_free, s'_eq]
    rfl
  have held : s'.held = s.held := by
    rw [s'_eq, held_setPc_same]
    · rfl
    · show Pc.held (.pushPage i page) = (s.pc t).held
      rw [idle]
      rfl
  have header_ne : s'.segmentThreadId = s.segmentThreadId := by rw [s'_eq]; rfl
  rw [count]
  refine ⟨?_, ?_, ?_, ?_, ?_, ?_, ?_, ?_, ?_, ?_⟩
  · have chain : Chain s'.blockNext 0 (cxlPageStart page)
        (blocksFrom (initBlockSize i) (n + 1) (cxlPageStart page)) := by
      rw [next]
      exact chain_linkBlocks (n := n) header pos isPage.cxlPageStart_pos
    have filled := h.lists.fill (q := Stack.free page)
      (by rw [heads_of_kept kept]; exact empty_free) chain
      (fun b mem => by rw [fresh b mem]; rfl)
      fun b q listed => outside_page b (by simp [stack_eq_some.1 listed])
    rw [heads]
    convert filled using 1
    funext b
    split <;> simp
  · intro b
    split
    · next mem => exact fun _ => ((inPage b).1 mem).ne_zero
    · exact h.nonzero b
  · intro b q
    split
    · next mem =>
      rintro ⟨⟩
      exact home_in b ((inPage b).1 mem)
    · exact h.fits b q
  · intro b
    have same : s'.object b = s.object b := by rw [s'_eq]; rfl
    rw [same, h.object]
    split
    · next mem => simp [fresh b mem]
    · exact Iff.rfl
  · intro b u
    have same : s'.rootOf b = s.rootOf b := by rw [s'_eq]; rfl
    rw [same, h.root]
    split
    · next mem => simp [fresh b mem]
    · exact Iff.rfl
  · intro o b
    rw [held, h.held]
    split
    · next mem => simp [fresh b mem]
    · exact Iff.rfl
  · intro (b : ℕ)
    split
    · rintro ⟨⟩
    · intro at_b
      have apart := elsewhere b (by simp [at_b])
      rw [Nat.add_mul, Nat.one_mul] at apart
      have same : s'.refInfo b = s.refInfo b := by
        rw [s'_eq]
        show (if b = cxlPageStart page + (pageSize / initBlockSize i - 1) * initBlockSize i then _
          else if _ ∧ _ ∧ b < cxlPageStart page + (pageSize / initBlockSize i - 1) * initBlockSize i
          then _ else _) = _
        rw [count, Nat.add_sub_cancel, if_neg (by omega), if_neg (by omega)]
      rw [same]
      exact h.live b at_b
  · intro o b x at_cas
    have linked : s'.linked = update s.linked (some t) none := by
      rw [s'_eq, linked_setPc]
      rfl
    rw [linked] at at_cas
    have other : o ≠ some t := by
      rintro rfl
      rw [update_self] at at_cas
      cases at_cas
    rw [update_of_ne other] at at_cas
    rw [outside_page b]
    · exact h.ready o b x at_cas
    · rw [(h.held o b).1 (State.linked_held at_cas)]
      simp
  · intro b
    have born : s'.bornIn b = s.bornIn b := by rw [s'_eq]; rfl
    have generation : s'.generation = s.generation := by rw [s'_eq]; rfl
    rw [born, generation]
    split
    · exact False.elim
    · exact h.born b
  · intro none
    rw [header_ne] at none
    intro b
    split
    · exact absurd none owned
    · exact h.blank none b

/-- The two lists of a page are forgotten. -/
theorem emptyPage {p : Pc} (h : Places place s) (page used : ℕ) (freePage : ℕ → List ℕ)
    (kept : s.Kept) (held : p.held = (s.pc t).held) (tail : p.tail = (s.pc t).tail) (linked : p.linked = none) :
    Places (fun b => if (place b).stack = some (.free page) ∨ (place b).stack = some (.localFree page)
        then .outside else place b)
      ({ s.clearRecord page with freePage := freePage, segmentUsed := used }.setPc t p) := by
  obtain ⟨s', s'_eq⟩ : ∃ s', s' = ({ s.clearRecord page with
    freePage := freePage, segmentUsed := used }.setPc t p : State) := ⟨_, rfl⟩
  rw [← s'_eq]
  have heads : s'.heads = update (update s.heads (.free page) 0) (.localFree page) 0 := by
    have kept' : s'.Kept := by rw [s'_eq]; exact kept
    have tail' : s'.tail = s.tail := by
      rw [s'_eq, tail_setPc]
      · rfl
      · exact tail
    rw [heads_of_kept kept', heads_of_kept kept, tail', ← heads_free, ← heads_localFree, s'_eq]
    rfl
  have held' : s'.held = s.held := by
    rw [s'_eq, held_setPc_same]
    · rfl
    · exact held
  refine ⟨?_, ?_, ?_, ?_, ?_, ?_, ?_, ?_, ?_, ?_⟩
  · have cleared := (h.lists.clear (q := Stack.free page)).clear (q := Stack.localFree page)
    have next : s'.blockNext = s.blockNext := by rw [s'_eq]; rfl
    rw [heads, next]
    convert cleared using 1
    funext b
    by_cases free : (place b).stack = some (.free page)
    · simp [free]
    · by_cases localFree : (place b).stack = some (.localFree page)
      · simp [localFree]
      · simp [free, localFree]
  · intro b
    split
    · exact fun absurd => (absurd rfl).elim
    · exact h.nonzero b
  · intro b q
    split
    · rintro ⟨⟩
    · exact h.fits b q
  · intro b
    have same : s'.object b = s.object b := by rw [s'_eq]; rfl
    rw [same, h.object]
    split
    · next listed =>
      rw [stack_eq_some, stack_eq_some] at listed
      rcases listed with listed | listed <;> simp [listed]
    · exact Iff.rfl
  · intro b u
    have same : s'.rootOf b = s.rootOf b := by rw [s'_eq]; rfl
    rw [same, h.root]
    split
    · next listed =>
      rw [stack_eq_some, stack_eq_some] at listed
      rcases listed with listed | listed <;> simp [listed]
    · exact Iff.rfl
  · intro o b
    rw [held', h.held]
    split
    · next listed =>
      rw [stack_eq_some, stack_eq_some] at listed
      rcases listed with listed | listed <;> simp [listed]
    · exact Iff.rfl
  · intro b
    have same : s'.refInfo b = s.refInfo b := by rw [s'_eq]; rfl
    rw [same]
    split
    · rintro ⟨⟩
    · exact h.live b
  · intro o b x at_cas
    have linked' : s'.linked = update s.linked (some t) none := by
      rw [s'_eq, linked_setPc, linked]
      rfl
    rw [linked'] at at_cas
    have other : o ≠ some t := by
      rintro rfl
      rw [update_self] at at_cas
      cases at_cas
    rw [update_of_ne other] at at_cas
    rw [s'_eq]
    exact h.ready o b x at_cas
  · intro b
    have born : s'.bornIn b = s.bornIn b := by rw [s'_eq]; rfl
    have generation : s'.generation = s.generation := by rw [s'_eq]; rfl
    rw [born, generation]
    split
    · exact False.elim
    · exact h.born b
  · intro none b
    have header : s'.segmentThreadId = s.segmentThreadId := by rw [s'_eq]; rfl
    rw [header] at none
    split
    · rfl
    · exact h.blank none b

end Places

end CxlShm.Handover
