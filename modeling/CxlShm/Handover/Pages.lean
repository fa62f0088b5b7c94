import CxlShm.Handover.Client

/-!
# The pages of the owner

The accesses by which the owner of the segment hands out blocks and takes them back, cuts pages into
blocks, and gives empty pages and at last the whole segment back.
-/

namespace CxlShm.Handover

open Linked Function Heap Counting

variable {g t i era page : ℕ} {bin bin' : ℕ → Option ℕ} {place place' : Offset → Place}
  {s s' : State} {b : Offset} {v : Place} {p : Pc} {special : Bool}

/-! ## Blocks of the owner -/

namespace Owned

/-- A block is given away by its page, or comes back to it. -/
theorem update_one (h : Owned g bin place s) (pc : s'.pc = update s.pc t p)
    (owner : s.segmentThreadId = t) (header : s'.segmentThreadId = s.segmentThreadId)
    (segmentUsed : s'.segmentUsed = s.segmentUsed) (blockSize : s'.blockSize = s.blockSize)
    (isMsgQueuePage : s'.isMsgQueuePage = s.isMsgQueuePage) (pages : s'.pages = s.pages)
    (freePage : s'.freePage = s.freePage)
    (used : ∀ page, s'.used page = countAt cxlPtrPage page Place.Counted (update place b v))
    (old : place b ≠ .outside) (new : v ≠ .outside) (suits : v.Suits (bin (cxlPtrPage b)))
    (moving : p.moving = (s.pc t).moving) (begin : p ≠ .pushFreePages) (todo : p.Todo bin s'.used) :
    Owned g bin (update place b v) s' := by
  have here : s'.pc s'.segmentThreadId = p := by
    rw [header, owner, pc, update_self]
  refine ⟨?_, ?_, ?_, used, ?_, ?_, ?_, ?_, ?_, ?_, ?_⟩
  · rw [blockSize, isMsgQueuePage]
    exact h.page
  · intro x
    rw [← h.block x]
    by_cases same : x = b
    · subst same
      rw [update_self]
      exact iff_of_true new old
    · rw [update_of_ne same]
  · intro x
    by_cases same : x = b
    · subst same
      rwa [update_self]
    · rw [update_of_ne same]
      exact h.suits x
  · intro page i
    rw [here, moving, pages, header, ← owner]
    exact h.queue page i
  · rw [pages, header]
    exact h.nodup
  · rw [segmentUsed]
    exact h.segmentUsed
  · rw [freePage, header]
    exact h.free
  · rw [freePage, header]
    exact h.once
  · rw [here]
    exact fun at_begin => absurd at_begin begin
  · rw [here]
    exact todo

theorem isPage (h : Owned g bin place s) (inside : place b ≠ .outside) : IsPage (cxlPtrPage b) := by
  obtain ⟨i, -, inPage⟩ := (h.block b).1 inside
  exact inPage.isPage

end Owned

namespace Inv

/-- A step of the owner after which it still is the owner. -/
theorem of_owned (h : Inv g bin place s) (kept : s.Kept) (owner : s.segmentThreadId = t)
    (pc : s'.pc = update s.pc t p) (same : SameOwner s s') (monitor : s'.monitor = s.monitor)
    (places : Places place' s') (taking : ¬ p.Taking)
    (pages : ∀ u i page, page ∈ s'.pages u i → page ∈ s.pages u i ∨ u = t)
    (freePage : ∀ u page, page ∈ s'.freePage u → page ∈ s.freePage u ∨ u = t)
    (owned : Owned g bin' place' s') : Inv g bin' place' s' := by
  have running : s.slot t = .running := by rwa [State.Kept, owner] at kept
  have some := h.control.owned_of_kept kept
  refine ⟨places, ?_, fun _ => owned, fun gone => absurd ((SameOwner.kept same).2 kept) gone⟩
  refine h.control.client pc same monitor running taking (fun _ => owner)
    (fun none => absurd none some) (fun none => absurd none some) ?_ ?_
  · intro u i page mem
    exact (pages u i page mem).imp_right fun here => ⟨here, owner⟩
  · intro u page mem
    exact (freePage u page mem).imp_right fun here => ⟨here, owner⟩

theorem alloc (h : Inv g bin place s) (ready : s.Ready t) (mem : page ∈ s.pages t i)
    (some : s.free page ≠ 0) :
    Inv g bin (update place (s.free page) (.held (Option.some t)))
      ({ s with
        used := update s.used page (inc32 (s.used page))
        free := update s.free page (s.blockNext (s.free page))
        bornIn := update s.bornIn (s.free page) s.generation }.setPc t
          (.storeBlock i (s.free page) era)) := by
  obtain ⟨running, idle⟩ := ready
  obtain ⟨kept, owner, in_bin⟩ := h.bin_of_mem running mem
  have owned := h.owned kept
  have heads := heads_of_kept kept
  have head : s.heads (.free page) = s.free page := by rw [heads]; rfl
  have at_b : place (s.free page) = .listed (.free page) := by
    have listed := h.places.lists.place_head (q := .free page) (by rwa [head])
    rw [head, stack_eq_some] at listed
    exact listed
  have page_eq : cxlPtrPage (s.free page) = page := h.places.fits _ _ at_b
  refine h.of_owned kept owner rfl ⟨rfl, rfl, rfl⟩ rfl ?_ id (fun u i page old => .inl old)
    (fun u page old => .inl old) ?_
  · refine h.places.take (by simp [State.held, idle, Pc.held]) (by simp [at_b]) (by simp [at_b]) ?_
      (fun _ _ => rfl) ?_ (fun _ _ => rfl) ?_ (held_setPc _ t _) (linked_setPc _ t _) (fun _ _ => rfl)
      (fun _ _ => rfl) ?_ (update_self _ _ _) rfl rfl
    · have popped := h.places.lists.pop (q := .free page) (by rwa [head])
      rw [head] at popped
      convert popped using 1
      · rfl
      have tail : ({ s with
        used := update s.used page (inc32 (s.used page))
        free := update s.free page (s.blockNext (s.free page))
        bornIn := update s.bornIn (s.free page) s.generation }.setPc t
          (.storeBlock i (s.free page) era) : State).tail = s.tail := by
        refine tail_setPc _ ?_
        show Pc.tail _ = (s.pc t).tail
        rw [idle]
        rfl
      have kept' : ({ s with
        used := update s.used page (inc32 (s.used page))
        free := update s.free page (s.blockNext (s.free page))
        bornIn := update s.bornIn (s.free page) s.generation }.setPc t
          (.storeBlock i (s.free page) era) : State).Kept := kept
      rw [heads_of_kept kept', tail, heads, ← heads_free]
      rfl
    · show s.object (s.free page) = false
      rw [← Bool.not_eq_true, h.places.object, at_b]
      simp
    · show s.rootOf (s.free page) = none
      rw [Option.eq_none_iff_forall_ne_some]
      intro u mine
      rw [(h.places.root _ u).1 mine] at at_b
      cases at_b
    · intro x other
      exact update_of_ne other _ _
  · refine owned.update_one rfl owner rfl rfl rfl rfl rfl rfl ?_ (by simp [at_b]) (by simp) trivial
      (by rw [idle]; rfl) (by simp) ?_
    · have gained := used_gain (p := Place.Counted) (v := Place.held (Option.some t)) owned.used
        (owned.isPage (b := s.free page) (by simp [at_b])) (by rw [at_b]; exact id) trivial
      rw [page_eq] at gained
      exact gained
    · show bin (cxlPtrPage (s.free page)) = Option.some i
      rw [page_eq]
      exact in_bin

/-- The first block of the detached chain goes back to its page. -/
theorem walk {tail : Offset} {exit : Bool} (h : Inv g bin place s)
    (at_pc : s.pc t = .walk page tail exit) (some : tail ≠ 0) :
    Inv g bin (update place tail (.listed (.localFree (cxlPtrPage tail))))
      ({ s.setNext tail (s.localFree (cxlPtrPage tail)) with
        localFree := update s.localFree (cxlPtrPage tail) tail
        used := update s.used (cxlPtrPage tail) (dec32 (s.used (cxlPtrPage tail))) }.setPc t
          (.walk page (s.blockNext tail) exit)) := by
  have owning : (s.pc t).Owning := by rw [at_pc]; trivial
  have owner := h.control.owning t owning
  have kept := h.control.kept_of_owning owning
  have todo := h.todo_of_owning owning
  have owned := h.owned kept
  have heads := heads_of_kept kept
  have tail_eq : s.tail = tail := by
    rw [State.tail, owner, at_pc]
    rfl
  have head : s.heads .detached = tail := by
    rw [heads]
    exact tail_eq
  have at_b : place tail = .listed .detached := by
    have listed := h.places.lists.place_head (q := .detached) (by rwa [head])
    rw [head, stack_eq_some] at listed
    exact listed
  rw [at_pc] at todo
  obtain ⟨s₁, s₁_eq⟩ : ∃ s₁, s₁ = ({ s.setNext tail (s.localFree (cxlPtrPage tail)) with
        localFree := update s.localFree (cxlPtrPage tail) tail
        used := update s.used (cxlPtrPage tail) (dec32 (s.used (cxlPtrPage tail))) }.setPc t
          (.walk page (s.blockNext tail) exit) : State) := ⟨_, rfl⟩
  have held : s₁.held = s.held := by
    rw [s₁_eq, held_setPc_same]
    · rfl
    · show Pc.held _ = (s.pc t).held
      rw [at_pc]
      rfl
  have places : Places (update place tail (.listed (.localFree (cxlPtrPage tail)))) s₁ := by
    refine h.places.change ?_ some (by rintro q ⟨⟩; rfl) ?_ ?_ ?_ ?_ (by rintro ⟨⟩) ?_ ?_ ?_ ?_ ?_
    · have pushed := (h.places.lists.pop (q := .detached) (by rwa [head])).push
        (q := .localFree (cxlPtrPage tail)) some (by rw [head, update_self])
      rw [head] at pushed
      convert pushed using 1
      · rw [s₁_eq, update_of_ne (by simp), heads]
        rfl
      · have kept' : s₁.Kept := by rw [s₁_eq]; exact kept
        have tail' : s₁.tail = s.blockNext tail := by
          rw [s₁_eq]
          show (update s.pc t (Pc.walk page (s.blockNext tail) exit) s.segmentThreadId).tail = _
          rw [owner, update_self]
          rfl
        rw [heads_of_kept kept', heads, tail', ← heads_tail, ← heads_localFree, s₁_eq]
        rfl
      · funext x
        by_cases here : x = tail
        · subst here
          simp
        · simp [here]
    · have object : s₁.object = s.object := by rw [s₁_eq]; rfl
      rw [object]
      exact iff_update (· = .object) h.places.object (fun _ _ => Iff.rfl)
        (by simp [h.places.object, at_b])
    · intro u
      have rootOf : s₁.rootOf = s.rootOf := by rw [s₁_eq]; rfl
      rw [rootOf]
      exact iff_update (· = .root u) (fun x => h.places.root x u) (fun _ _ => Iff.rfl)
        (by simp [h.places.root, at_b])
    · intro o
      rw [held]
      exact iff_update (· = .held o) (h.places.held o) (fun _ _ => Iff.rfl)
        (by simp [h.places.held, at_b])
    · intro x _ _
      rw [s₁_eq]
      rfl
    · have register : s₁.linked = update s.linked (Option.some t) none := by
        rw [s₁_eq, linked_setPc]
        rfl
      refine h.places.ready_of (b := tail) register (by rintro x y ⟨⟩) ?_ ?_
      · intro o _
        simp [at_b]
      · intro x other
        rw [s₁_eq]
        exact update_of_ne other _ _
    · intro x _
      rw [s₁_eq]
      rfl
    · exact False.elim
    · rw [s₁_eq]
      rfl
    · rw [s₁_eq]
      exact h.control.owned_of_kept kept
  rw [← s₁_eq]
  refine h.of_owned (p := .walk page (s.blockNext tail) exit) kept owner (by rw [s₁_eq]; rfl)
    (by rw [s₁_eq]; exact ⟨rfl, rfl, rfl⟩) (by rw [s₁_eq]; rfl) places id
    (fun u i page old => .inl (by rwa [s₁_eq] at old)) (fun u page old => .inl (by rwa [s₁_eq] at old)) ?_
  subst s₁_eq
  refine owned.update_one rfl owner rfl rfl rfl rfl rfl rfl ?_ (by simp [at_b]) (by simp) trivial
    (by rw [at_pc]; rfl) (by simp) todo
  exact used_lose (p := Place.Counted) owned.used (owned.isPage (b := tail) (by simp [at_b]))
    (by rw [at_b]; trivial) id

/-- A block of the owner goes back to its page. -/
theorem freeLocal (h : Inv g bin place s) (at_pc : s.pc t = .freeLocal b special)
    (next : p = if dec32 (s.used (cxlPtrPage b)) = 0 then .removePage (cxlPtrPage b) special
      else .idle) :
    Inv g bin (update place b (.listed (.localFree (cxlPtrPage b))))
      ({ s.setNext b (s.localFree (cxlPtrPage b)) with
        localFree := update s.localFree (cxlPtrPage b) b
        used := update s.used (cxlPtrPage b) (dec32 (s.used (cxlPtrPage b))) }.setPc t p) := by
  have at_b : place b = .held (some t) := h.places.in_hand (by simp [State.held, at_pc, Pc.held])
  have owning : (s.pc t).Owning := by rw [at_pc]; trivial
  have owner := h.control.owning t owning
  have kept := h.control.kept_of_owning owning
  have todo := h.todo_of_owning owning
  have owned := h.owned kept
  have heads := heads_of_kept kept
  rw [at_pc] at todo
  have held_p : p.held = none := by
    rw [next]
    split <;> rfl
  have linked_p : p.linked = none := by
    rw [next]
    split <;> rfl
  have tail_p : p.tail = 0 := by
    rw [next]
    split <;> rfl
  have taking_p : ¬ p.Taking := by
    rw [next]
    split <;> exact id
  have moving_p : p.moving = none := by
    rw [next]
    split <;> rfl
  have begin_p : p ≠ .pushFreePages := by
    rw [next]
    split <;> simp
  have inside : place b ≠ .outside := by simp [at_b]
  refine h.of_owned (p := p) kept owner rfl ⟨rfl, rfl, rfl⟩ rfl ?_ taking_p (fun u i page old => .inl old)
    (fun u page old => .inl old) ?_
  · refine h.places.release at_b (by rintro o ⟨⟩) ?_ (by rintro q ⟨⟩; rfl) (fun _ _ => rfl) ?_
      (fun _ _ => rfl) ?_ ?_ ?_ ?_ (fun _ _ => rfl) (by rintro ⟨⟩) rfl rfl rfl
    · have pushed := h.places.lists.push (q := .localFree (cxlPtrPage b)) (h.places.nonzero b inside)
        (by simp [at_b])
      convert pushed using 1
      · rw [heads]
        rfl
      · have tail : ({ s.setNext b (s.localFree (cxlPtrPage b)) with
          localFree := update s.localFree (cxlPtrPage b) b
          used := update s.used (cxlPtrPage b) (dec32 (s.used (cxlPtrPage b))) }.setPc t p :
            State).tail = s.tail := by
          refine tail_setPc _ ?_
          show p.tail = (s.pc t).tail
          rw [at_pc, tail_p]
          rfl
        have kept' : ({ s.setNext b (s.localFree (cxlPtrPage b)) with
          localFree := update s.localFree (cxlPtrPage b) b
          used := update s.used (cxlPtrPage b) (dec32 (s.used (cxlPtrPage b))) }.setPc t p :
            State).Kept := kept
        rw [heads_of_kept kept', heads, tail, ← heads_localFree]
        rfl
      · rfl
    · show s.object b = true ↔ _
      simp [h.places.object, at_b]
    · intro u
      show s.rootOf b = some u ↔ _
      simp [h.places.root, at_b]
    · rw [held_setPc, held_p]
      rfl
    · rw [linked_setPc, linked_p]
      rfl
    · intro x other
      exact update_of_ne other _ _
  · refine owned.update_one rfl owner rfl rfl rfl rfl rfl rfl ?_ inside (by simp) trivial
      (by rw [moving_p, at_pc]; rfl) begin_p ?_
    · exact used_lose (p := Place.Counted) owned.used (owned.isPage inside)
        (by rw [at_b]; trivial) id
    · show p.Todo bin (update s.used (cxlPtrPage b) (dec32 (s.used (cxlPtrPage b))))
      by_cases unused : dec32 (s.used (cxlPtrPage b)) = 0
      · rw [if_pos unused] at next
        subst next
        exact ⟨todo, by rw [update_self, unused]⟩
      · rw [if_neg unused] at next
        subst next
        trivial

/-! ## Pages of the owner -/

theorem mem_segmentPages {x : ℕ} :
    x ∈ segmentPages g ↔ IsPage x ∧ segmentIndex x = g := by
  rw [segmentPages, List.mem_map]
  constructor
  · rintro ⟨k, range, rfl⟩
    rw [List.mem_range'_1] at range
    have small : k < pagesPerSegment := by omega
    exact ⟨⟨g, k, range.1, small, rfl⟩, segmentIndex_metaPage small⟩
  · rintro ⟨isPage, rfl⟩
    obtain ⟨k, from_one, small, same⟩ := isPage.eq_metaPage
    refine ⟨k, ?_, same.symm⟩
    rw [List.mem_range'_1]
    omega

theorem nodup_segmentPages : (segmentPages g).Nodup := by
  refine List.Nodup.map_on ?_ List.nodup_range'
  intro k range k' range' same
  rw [List.mem_range'_1] at range range'
  exact (metaPage_inj (by omega) (by omega) same).2

theorem pushFreePages (h : Inv g bin place s) (at_pc : s.pc t = .pushFreePages) :
    Inv g bin place
      ({ s with
        segmentUsed := 0
        freePage := update s.freePage t (segmentPages g ++ s.freePage t) }.setPc t .idle) := by
  have owning : (s.pc t).Owning := by rw [at_pc]; trivial
  have owner := h.control.owning t owning
  have kept := h.control.kept_of_owning owning
  have todo := h.todo_of_owning owning
  have owned := h.owned kept
  rw [at_pc] at todo
  have none : s.freePage t = [] := by
    have begin := owned.begin
    rw [owner] at begin
    exact begin at_pc
  refine h.of_owned kept owner rfl ⟨rfl, rfl, rfl⟩ rfl ?_ id (fun u i page old => .inl old) ?_ ?_
  · have places := h.places.setPc (t := t) (p := .idle) (by rw [at_pc]; rfl) (by rw [at_pc]; rfl)
      (by rintro x y ⟨⟩)
    exact places.frame rfl (fun _ _ _ => rfl) rfl rfl rfl places.live places.ready rfl rfl id
  · intro u page mem
    by_cases here : u = t
    · exact .inr here
    · have old : page ∈ update s.freePage t (segmentPages g ++ s.freePage t) u := mem
      rw [update_of_ne here] at old
      exact .inl old
  · have idle : (update s.pc t .idle s.segmentThreadId) = Pc.idle := by rw [owner, update_self]
    have free : update s.freePage t (segmentPages g ++ s.freePage t) s.segmentThreadId =
        segmentPages g := by
      rw [owner, update_self, none, List.append_nil]
    refine ⟨owned.page, owned.block, owned.suits, owned.used, ?_, owned.nodup, ?_, ?_, ?_, ?_, ?_⟩
    · intro page i
      show page ∈ s.pages s.segmentThreadId i ↔ _ ∧ (update s.pc t .idle s.segmentThreadId).moving ≠ _
      rw [idle, owned.queue, owner, at_pc]
      rfl
    · symm
      refine countAt_eq_zero fun page _ => ?_
      rw [todo page]
      simp
    · show ∀ page ∈ update s.freePage t (segmentPages g ++ s.freePage t) s.segmentThreadId, _
      rw [free]
      intro page mem
      obtain ⟨isPage, segment⟩ := mem_segmentPages.1 mem
      exact ⟨isPage, segment, todo page⟩
    · show (update s.freePage t (segmentPages g ++ s.freePage t) s.segmentThreadId).Nodup
      rw [free]
      exact nodup_segmentPages
    · show update s.pc t .idle s.segmentThreadId = _ → _
      rw [idle]
      rintro ⟨⟩
    · show Pc.Todo bin s.used (update s.pc t .idle s.segmentThreadId)
      rw [idle]
      trivial

/-- The queues of the owner after a change of one of them. -/
theorem mem_setQueue {l : List ℕ} {u k x : ℕ} (mem : x ∈ (s.setQueue t i l).pages u k) :
    x ∈ s.pages u k ∨ u = t := by
  by_cases here : u = t
  · exact .inr here
  · have old : x ∈ update s.pages t (update (s.pages t) i l) u k := mem
    rw [update_of_ne here] at old
    exact .inl old

/-- A page goes into a queue of the owner, or leaves it. -/
theorem queued {l : List ℕ} (h : Inv g bin place s) (owning : (s.pc t).Owning)
    (held : p.held = (s.pc t).held) (tail : p.tail = (s.pc t).tail) (linked : p.linked = none)
    (taking : ¬ p.Taking) (begin : p ≠ .pushFreePages)
    (queue : ∀ page, page ∈ l ↔ bin page = some i ∧ p.moving ≠ some page) (nodup : l.Nodup)
    (others : ∀ page k, k ≠ i → bin page = some k →
      (p.moving ≠ some page ↔ (s.pc t).moving ≠ some page))
    (todo : p.Todo bin s.used) : Inv g bin place ((s.setQueue t i l).setPc t p) := by
  have owner := h.control.owning t owning
  have kept := h.control.kept_of_owning owning
  have owned := h.owned kept
  refine h.of_owned kept owner rfl ⟨rfl, rfl, rfl⟩ rfl ?_ taking (fun u k x mem => mem_setQueue mem)
    (fun u page old => .inl old) ?_
  · have places := h.places.setPc (t := t) (p := p) held tail (by rw [linked]; rintro x y ⟨⟩)
    exact places.frame rfl (fun _ _ _ => rfl) rfl rfl rfl places.live places.ready rfl rfl id
  · have here : update s.pc t p s.segmentThreadId = p := by rw [owner, update_self]
    have pages : ∀ k, update s.pages t (update (s.pages t) i l) s.segmentThreadId k =
        if k = i then l else s.pages t k := by
      intro k
      rw [owner, update_self, update_apply]
    refine ⟨owned.page, owned.block, owned.suits, owned.used, ?_, ?_, owned.segmentUsed, owned.free,
      owned.once, ?_, ?_⟩
    · intro page k
      show page ∈ update s.pages t (update (s.pages t) i l) s.segmentThreadId k ↔
        _ ∧ (update s.pc t p s.segmentThreadId).moving ≠ _
      rw [here, pages]
      split
      · next same =>
        rw [same]
        exact queue page
      · next other =>
        have old := owned.queue page k
        rw [owner] at old
        rw [old]
        exact and_congr_right fun in_bin => (others page k other in_bin).symm
    · intro k
      show (update s.pages t (update (s.pages t) i l) s.segmentThreadId k).Nodup
      rw [pages]
      split
      · exact nodup
      · have old := owned.nodup k
        rwa [owner] at old
    · show update s.pc t p s.segmentThreadId = _ → _
      rw [here]
      exact fun at_begin => absurd at_begin begin
    · show Pc.Todo bin s.used (update s.pc t p s.segmentThreadId)
      rw [here]
      exact todo

theorem pushPage (h : Inv g bin place s) (at_pc : s.pc t = .pushPage i page) :
    Inv g bin place ((s.setQueue t i (page :: s.pages t i)).setPc t .idle) := by
  have owning : (s.pc t).Owning := by rw [at_pc]; trivial
  have owner := h.control.owning t owning
  have todo := h.todo_of_owning owning
  have owned := h.owned (h.control.kept_of_owning owning)
  have queue := owned.queue
  have nodup := owned.nodup i
  rw [owner, at_pc] at queue
  rw [owner] at nodup
  rw [at_pc] at todo
  obtain ⟨in_bin, -⟩ := todo
  have moving : ∀ x, ((Pc.pushPage i page).moving ≠ some x ↔ x ≠ page) := by
    intro x
    simp [Pc.moving, eq_comm]
  refine h.queued owning (by rw [at_pc]; rfl) (by rw [at_pc]; rfl) rfl id (by simp) ?_ ?_ ?_ trivial
  · intro x
    rw [List.mem_cons, queue, moving]
    constructor
    · rintro (rfl | ⟨old, -⟩)
      · exact ⟨in_bin, by simp [Pc.moving]⟩
      · exact ⟨old, by simp [Pc.moving]⟩
    · rintro ⟨old, -⟩
      by_cases same : x = page
      · exact .inl same
      · exact .inr ⟨old, same⟩
  · refine List.nodup_cons.2 ⟨?_, nodup⟩
    rw [queue, moving]
    exact fun absurd => absurd.2 rfl
  · intro x k other in_k
    rw [at_pc, moving]
    refine iff_of_true (by simp [Pc.moving]) ?_
    rintro rfl
    rw [in_bin] at in_k
    exact other (Option.some.inj in_k).symm

theorem removePage (h : Inv g bin place s) (at_pc : s.pc t = .removePage page special)
    (queue_eq : i = cxlPageQueue special (s.blockSize page)) :
    page ∈ s.pages t i ∧
      Inv g bin place ((s.setQueue t i ((s.pages t i).erase page)).setPc t (.clearPage page)) := by
  have owning : (s.pc t).Owning := by rw [at_pc]; trivial
  have owner := h.control.owning t owning
  have todo := h.todo_of_owning owning
  have owned := h.owned (h.control.kept_of_owning owning)
  have queue := owned.queue
  have nodup := owned.nodup i
  rw [owner, at_pc] at queue
  rw [owner] at nodup
  rw [at_pc] at todo
  obtain ⟨suits, unused⟩ := todo
  obtain ⟨k, in_bin⟩ := suits.taken
  obtain ⟨-, -, ⟨few, -⟩, size, -⟩ := owned.page page k in_bin
  obtain rfl : i = k := by
    rw [queue_eq, size]
    rw [in_bin] at suits
    exact suits.bin few
  have mem : page ∈ s.pages t i := (queue page i).2 ⟨in_bin, by simp [Pc.moving]⟩
  refine ⟨mem, ?_⟩
  refine h.queued owning (by rw [at_pc]; rfl) (by rw [at_pc]; rfl) rfl id (by simp) ?_ ?_ ?_
    ⟨⟨i, in_bin⟩, unused⟩
  · intro x
    rw [nodup.mem_erase_iff, queue]
    simp [Pc.moving, eq_comm, and_comm]
  · exact nodup.erase page
  · intro x k other in_k
    rw [at_pc]
    refine iff_of_true ?_ (by simp [Pc.moving])
    simp only [Pc.moving, ne_eq, Option.some.injEq]
    rintro rfl
    rw [in_bin] at in_k
    exact other (Option.some.inj in_k).symm

/-- A segment has few pages. -/
theorem bins_small (owned : Owned g bin place s) :
    countAt segmentIndex g Taken bin < 2 ^ 32 - 1 := by
  have same : countAt segmentIndex g Taken bin =
      countAt segmentIndex g InBin fun page => (bin page).map fun _ => (0, 0) := by
    refine count_congr fun page => and_congr_right fun _ => ?_
    show Taken (bin page) ↔ InBin ((bin page).map fun _ => (0, 0))
    cases bin page with
    | none => simp [InBin]
    | some i => simp [InBin, cxlBinSize]
  rw [same]
  refine countAt_segment_small _ (fun page inBin => ?_) g
  obtain ⟨u, k, here, -⟩ := inBin
  obtain ⟨i, in_bin, -⟩ := Option.map_eq_some_iff.1 here
  exact (owned.page page i in_bin).1

/-- The blocks of a page that is not used are on its two lists. -/
theorem unused_page (h : Places place s) (owned : Owned g bin place s) (isPage : IsPage page)
    (unused : s.used page = 0) (here : cxlPtrPage b = page) :
    place b = .outside ∨ place b = .listed (.free page) ∨ place b = .listed (.localFree page) := by
  have uncounted : ¬ (place b).Counted := by
    intro counted
    have some := countAt_pos (p := Place.Counted) (finite_page isPage) here counted
    rw [← owned.used, unused] at some
    omega
  rcases at_b : place b with _ | (p | p | _ | _) | _ | _ | _ | _
  · exact .inl rfl
  · have fits : cxlPtrPage b = p := h.fits b _ at_b
    exact .inr (.inl (by rw [← here, fits]))
  · have fits : cxlPtrPage b = p := h.fits b _ at_b
    exact .inr (.inr (by rw [← here, fits]))
  all_goals
    rw [at_b] at uncounted
    exact absurd trivial uncounted

/-- A page without blocks in use goes back to the free pages. -/
theorem clearPage (h : Inv g bin place s) (at_pc : s.pc t = .clearPage page)
    {used : ℕ} (one_less : used = dec32 s.segmentUsed)
    (next : p = if used = 0 then .clearSegment else .idle) :
    ∃ place', Inv g (update bin page none) place'
      ({ s.clearRecord page with
        freePage := update s.freePage t (page :: s.freePage t)
        segmentUsed := used }.setPc t p) := by
  have owning : (s.pc t).Owning := by rw [at_pc]; trivial
  have owner := h.control.owning t owning
  have kept := h.control.kept_of_owning owning
  have todo := h.todo_of_owning owning
  have owned := h.owned kept
  rw [at_pc] at todo
  obtain ⟨⟨i, in_bin⟩, unused⟩ := todo
  obtain ⟨isPage, segment, -⟩ := owned.page page i in_bin
  have step : p = .clearSegment ∧ used = 0 ∨ p = .idle := by
    by_cases last : used = 0
    · rw [if_pos last] at next
      exact .inl ⟨next, last⟩
    · rw [if_neg last] at next
      exact .inr next
  clear next
  have held : p.held = none := by rcases step with ⟨rfl, -⟩ | rfl <;> rfl
  have linked : p.linked = none := by rcases step with ⟨rfl, -⟩ | rfl <;> rfl
  have tail : p.tail = 0 := by rcases step with ⟨rfl, -⟩ | rfl <;> rfl
  have moving : p.moving = none := by rcases step with ⟨rfl, -⟩ | rfl <;> rfl
  have own := fun b => unused_page (b := b) h.places owned isPage unused
  replace one_less : used = countAt segmentIndex g Taken (update bin page none) := by
    have small := bins_small owned
    have lost := countAt_update_lose (p := Taken) (f := bin) (b := none)
      (finite_segment g) segment (by rw [in_bin]; exact taken_some) not_taken_none
    have pos : 0 < countAt segmentIndex g Taken bin := by omega
    have less := dec32_eq pos small
    rw [← owned.segmentUsed] at less pos lost
    omega
  have same_held : p.held = (s.pc t).held := by
    rw [held, at_pc]
    rfl
  have same_tail : p.tail = (s.pc t).tail := by
    rw [tail, at_pc]
    rfl
  have places := h.places.emptyPage page used (update s.freePage t (page :: s.freePage t)) kept same_held
    same_tail linked
  refine ⟨_, h.of_owned (p := p) kept owner rfl ⟨rfl, rfl, rfl⟩ rfl places ?_
    (fun u i x old => .inl old) ?_ ?_⟩
  · rcases step with ⟨rfl, -⟩ | rfl <;> exact id
  · intro u x mem
    by_cases here : u = t
    · exact .inr here
    · have old : x ∈ update s.freePage t (page :: s.freePage t) u := mem
      rw [update_of_ne here] at old
      exact .inl old
  · have here : update s.pc t p s.segmentThreadId = p := by rw [owner, update_self]
    have free : update s.freePage t (page :: s.freePage t) s.segmentThreadId =
        page :: s.freePage t := by
      rw [owner, update_self]
    have queue := owned.queue
    rw [owner, at_pc] at queue
    have old_free := owned.free
    have old_once := owned.once
    rw [owner] at old_free old_once
    have elsewhere : ∀ b, cxlPtrPage b ≠ page →
        ¬ ((place b).stack = some (.free page) ∨ (place b).stack = some (.localFree page)) := by
      rintro b other (listed | listed)
      · exact other (h.places.fits b _ (stack_eq_some.1 listed))
      · exact other (h.places.fits b _ (stack_eq_some.1 listed))
    have gone : ∀ b, cxlPtrPage b = page →
        (if (place b).stack = some (.free page) ∨ (place b).stack = some (.localFree page) then
          Place.outside else place b) = .outside := by
      intro b inside
      rcases own b inside with old | old | old <;> simp [old]
    refine ⟨?_, ?_, ?_, ?_, ?_, ?_, one_less, ?_, ?_, ?_, ?_⟩
    · intro x k in_k
      have other : x ≠ page := by
        rintro rfl
        simp at in_k
      rw [update_of_ne other] at in_k
      obtain ⟨isPage, segment, few, size, msg⟩ := owned.page x k in_k
      refine ⟨isPage, segment, few, ?_, ?_⟩
      · show update s.blockSize page 0 x = _
        rw [update_of_ne other, size]
      · show update s.isMsgQueuePage page false x = _
        rw [update_of_ne other, msg]
    · intro b
      by_cases inside : cxlPtrPage b = page
      · rw [gone b inside, inside, update_self]
        simp
      · rw [if_neg (elsewhere b inside), update_of_ne inside]
        exact owned.block b
    · intro b
      by_cases inside : cxlPtrPage b = page
      · rw [gone b inside]
        trivial
      · rw [if_neg (elsewhere b inside), update_of_ne inside]
        exact owned.suits b
    · intro x
      show update s.used page 0 x = _
      by_cases same : x = page
      · subst same
        rw [update_self, countAt_eq_zero]
        intro b inside
        rw [gone b inside]
        exact id
      · rw [update_of_ne same, owned.used]
        refine countAt_congr fun b inside => ?_
        rw [if_neg (elsewhere b (by rw [inside]; exact same))]
    · intro x k
      show x ∈ s.pages s.segmentThreadId k ↔ _ ∧ (update s.pc t p s.segmentThreadId).moving ≠ _
      rw [here, moving, owner, queue]
      by_cases same : x = page
      · subst same
        simp [Pc.moving]
      · simp [Pc.moving, same, Ne.symm same]
    · exact owned.nodup
    · show ∀ x ∈ update s.freePage t (page :: s.freePage t) s.segmentThreadId, _
      rw [free]
      intro x mem
      rcases List.mem_cons.1 mem with rfl | mem
      · exact ⟨isPage, segment, update_self _ _ _⟩
      · obtain ⟨isPage', segment', none⟩ := old_free x mem
        have other : x ≠ page := by
          rintro rfl
          rw [none] at in_bin
          cases in_bin
        exact ⟨isPage', segment', by rw [update_of_ne other, none]⟩
    · show (update s.freePage t (page :: s.freePage t) s.segmentThreadId).Nodup
      rw [free]
      refine List.nodup_cons.2 ⟨?_, old_once⟩
      intro mem
      obtain ⟨-, -, none⟩ := old_free page mem
      rw [none] at in_bin
      cases in_bin
    · show update s.pc t p s.segmentThreadId = _ → _
      rw [here]
      rcases step with ⟨rfl, -⟩ | rfl <;> rintro ⟨⟩
    · show Pc.Todo (update bin page none) (update s.used page 0) (update s.pc t p s.segmentThreadId)
      rw [here]
      rcases step with ⟨rfl, last⟩ | rfl
      · intro x
        rw [one_less] at last
        by_contra some
        obtain ⟨k, in_k⟩ := Option.ne_none_iff_exists'.1 some
        have segment_x : segmentIndex x = g := by
          have other : x ≠ page := by
            rintro rfl
            simp at in_k
          rw [update_of_ne other] at in_k
          exact (owned.page x k in_k).2.1
        have counted := countAt_pos (p := Taken) (finite_segment g)
          segment_x ⟨k, in_k⟩
        omega
      · trivial

/-- A free page is cut into blocks for a bin. -/
theorem takePage {rest : List ℕ} (h : Inv g bin place s) (stale : ℕ) (ready : s.Ready t)
    (free : s.freePage t = page :: rest) (few : i < cxlBinSize) (not_two : i ≠ 2) :
    ∃ place', Inv g (update bin page (some i)) place'
      ({ s.initPage i page stale with
        freePage := update s.freePage t rest
        segmentUsed := inc32 s.segmentUsed }.setPc t (.pushPage i page)) := by
  obtain ⟨running, idle⟩ := ready
  have owner := h.control.owner_of_free running
    (show page ∈ s.freePage t by rw [free]; exact List.mem_cons_self)
  have kept := Control.kept_of_owner running owner
  have owned := h.owned kept
  have old_free := owned.free
  have old_once := owned.once
  rw [owner, free] at old_free old_once
  obtain ⟨isPage, segment, none⟩ := old_free page List.mem_cons_self
  obtain ⟨out, once⟩ := List.nodup_cons.1 old_once
  have unused : ∀ b, cxlPtrPage b = page → place b = .outside := by
    intro b here
    by_contra inside
    obtain ⟨k, in_k, -⟩ := (owned.block b).1 inside
    rw [here, none] at in_k
    cases in_k
  have size := initBlockSize_pos few
  have inPage : ∀ b, b ∈ blocksFrom (initBlockSize i) (pageSize / initBlockSize i) (cxlPageStart page) ↔
      InPage page i b := by
    intro b
    rw [mem_blocksFrom]
    exact ⟨fun at_index => ⟨isPage, at_index⟩, fun inPage => inPage.at_index⟩
  have home : ∀ b, InPage page i b → cxlPtrPage b = page := fun b inPage =>
    inPage.cxlPtrPage_eq le_rfl (by omega)
  refine ⟨_, h.of_owned (p := .pushPage i page) kept owner rfl ⟨rfl, rfl, rfl⟩ rfl
    (h.places.initPage kept (h.control.owned_of_kept kept) idle isPage few unused) id
    (fun u i x old => .inl old) ?_ ?_⟩
  · intro u x mem
    by_cases here : u = t
    · exact .inr here
    · have old : x ∈ update s.freePage t rest u := mem
      rw [update_of_ne here] at old
      exact .inl old
  · have here : update s.pc t (.pushPage i page) s.segmentThreadId = Pc.pushPage i page := by
      rw [owner, update_self]
    have free' : update s.freePage t rest s.segmentThreadId = rest := by rw [owner, update_self]
    have queue := owned.queue
    rw [owner, idle] at queue
    refine ⟨?_, ?_, ?_, ?_, ?_, ?_, ?_, ?_, ?_, ?_, ?_⟩
    · intro x k in_k
      by_cases same : x = page
      · subst same
        rw [update_self] at in_k
        obtain rfl := Option.some.inj in_k
        exact ⟨isPage, segment, ⟨few, not_two⟩, update_self _ _ _, update_self _ _ _⟩
      · rw [update_of_ne same] at in_k
        obtain ⟨isPage, segment, few, size, msg⟩ := owned.page x k in_k
        refine ⟨isPage, segment, few, ?_, ?_⟩
        · show update s.blockSize page _ x = _
          rw [update_of_ne same, size]
        · show update s.isMsgQueuePage page _ x = _
          rw [update_of_ne same, msg]
    · intro b
      by_cases mem : b ∈ blocksFrom (initBlockSize i) (pageSize / initBlockSize i) (cxlPageStart page)
      · rw [if_pos mem]
        have inside := (inPage b).1 mem
        have same := home b inside
        refine iff_of_true (by simp) ⟨i, by rw [same, update_self], by rwa [same]⟩
      · rw [if_neg mem]
        by_cases same : cxlPtrPage b = page
        · rw [unused b same, same, update_self]
          refine iff_of_false (fun absurd => absurd rfl) ?_
          rintro ⟨k, in_k, inside⟩
          obtain rfl := Option.some.inj in_k
          exact mem ((inPage b).2 inside)
        · rw [update_of_ne same]
          exact owned.block b
    · intro b
      split
      · trivial
      · by_cases same : cxlPtrPage b = page
        · rw [unused b same]
          trivial
        · rw [update_of_ne same]
          exact owned.suits b
    · intro x
      have old : update s.used page 0 x = s.used x := by
        by_cases same : x = page
        · subst same
          rw [update_self, owned.used, countAt_eq_zero]
          intro b inside
          rw [unused b inside]
          exact id
        · rw [update_of_ne same]
      show update s.used page 0 x = _
      rw [old, owned.used]
      refine countAt_congr fun b _ => ?_
      split
      · next mem =>
        rw [unused b (home b ((inPage b).1 mem))]
        exact Iff.rfl
      · exact Iff.rfl
    · intro x k
      show x ∈ s.pages s.segmentThreadId k ↔
        _ ∧ (update s.pc t (.pushPage i page) s.segmentThreadId).moving ≠ _
      rw [here, owner, queue]
      by_cases same : x = page
      · subst same
        simp [Pc.moving, none]
      · simp [Pc.moving, same, Ne.symm same]
    · exact owned.nodup
    · show inc32 s.segmentUsed = _
      rw [owned.segmentUsed, inc32_eq (bins_small owned),
        countAt_update_gain (finite_segment g) segment (by rw [none]; exact not_taken_none) taken_some]
    · show ∀ x ∈ update s.freePage t rest s.segmentThreadId, _
      rw [free']
      intro x mem
      obtain ⟨isPage', segment', none'⟩ := old_free x (List.mem_cons_of_mem _ mem)
      have other : x ≠ page := by
        rintro rfl
        exact out mem
      exact ⟨isPage', segment', by rw [update_of_ne other, none']⟩
    · show (update s.freePage t rest s.segmentThreadId).Nodup
      rw [free']
      exact once
    · show update s.pc t (.pushPage i page) s.segmentThreadId = _ → _
      rw [here]
      rintro ⟨⟩
    · show Pc.Todo (update bin page (some i)) (update s.used page 0)
        (update s.pc t (.pushPage i page) s.segmentThreadId)
      rw [here]
      exact ⟨update_self _ _ _, update_self _ _ _⟩

end Inv

end CxlShm.Handover
