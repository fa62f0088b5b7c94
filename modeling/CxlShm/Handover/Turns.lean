import CxlShm.Handover.Pages

/-!
# Clients come and go

A client takes a slot, takes the segment, gives it back, leaves or stops.  These are the steps at
which the segment changes hands: what the owner before has left must not be in the way of the next
one.
-/

namespace CxlShm.Handover

open Linked Function Heap Counting

variable {g t i page : ℕ} {bin : ℕ → Option ℕ} {place place' : Offset → Place} {s s' : State}
  {b : Offset}

theorem heads_congr (kept : s'.Kept ↔ s.Kept) (free : s'.free = s.free)
    (localFree : s'.localFree = s.localFree) (chain : s'.chain = s.chain) (tail : s'.tail = s.tail) :
    s'.heads = s.heads := by
  unfold State.heads
  simp only [kept, free, localFree, chain, tail]

theorem mem_objectPages : page ∈ s.objectPages t ↔ ∃ i, 2 ≤ i ∧ i < cxlBinSize ∧ page ∈ s.pages t i := by
  rw [State.objectPages, List.mem_flatMap]
  constructor
  · rintro ⟨i, range, mem⟩
    rw [List.mem_range'_1] at range
    exact ⟨i, range.1, by rw [cxlBinSize] at range ⊢; omega, mem⟩
  · rintro ⟨i, low, high, mem⟩
    refine ⟨i, ?_, mem⟩
    rw [List.mem_range'_1, cxlBinSize] at *
    omega

namespace Inv

theorem slot_zero (h : Control s) : s.slot 0 = .free := by
  by_contra used
  exact h.registered 0 used rfl

/-- A segment whose header is empty. -/
theorem blank (places : Places place s) (control : Control s) (none : s.segmentThreadId = 0) :
    Inv g bin place s := by
  have outside := places.blank none
  have gone : ¬ s.Kept := by
    rw [State.Kept, none, slot_zero control]
    simp
  have object : ∀ b, place b ≠ .object := by simp [outside]
  refine ⟨places, control, fun kept => absurd kept gone, fun _ => ?_⟩
  exact ⟨fun b at_b => absurd at_b (object b), fun b at_b => absurd at_b (object b),
    fun _ b at_b => absurd at_b (object b), fun _ b at_b => absurd at_b (object b),
    fun _ _ => object _⟩

/-! ## Slots -/

/-- A slot that is free is taken by a client that the header does not name. -/
theorem register (h : Inv g bin place s) (first : t ≠ 0) (free : s.slot t = .free)
    (other : s.segmentThreadId ≠ t) :
    Inv g bin place
      { s with
        slot := update s.slot t .running
        pages := update s.pages t fun _ => []
        freePage := update s.freePage t [] } := by
  obtain ⟨s₁, s₁_eq⟩ : ∃ s₁, s₁ = ({ s with
        slot := update s.slot t .running
        pages := update s.pages t fun _ => []
        freePage := update s.freePage t [] } : State) := ⟨_, rfl⟩
  have slot : ∀ u, u ≠ t → s₁.slot u = s.slot u := by
    intro u elsewhere
    rw [s₁_eq]
    exact update_of_ne elsewhere _ _
  have pages : ∀ u, u ≠ t → s₁.pages u = s.pages u := by
    intro u elsewhere
    rw [s₁_eq]
    exact update_of_ne elsewhere _ _
  have freePage : ∀ u, u ≠ t → s₁.freePage u = s.freePage u := by
    intro u elsewhere
    rw [s₁_eq]
    exact update_of_ne elsewhere _ _
  have none : (∀ k, s₁.pages t k = []) ∧ s₁.freePage t = [] := by
    rw [s₁_eq]
    refine ⟨fun k => ?_, update_self _ _ _⟩
    show update s.pages t (fun _ => []) t k = []
    rw [update_self]
  have header : s₁.segmentThreadId = s.segmentThreadId := by rw [s₁_eq]
  have kept : s₁.Kept ↔ s.Kept := by
    rw [State.Kept, header, slot _ other]
    exact Iff.rfl
  have idle : s.pc t = .idle := by
    by_contra busy
    rw [h.control.running t busy] at free
    cases free
  have pc : s₁.pc = s.pc := by rw [s₁_eq]
  have monitor : s₁.monitor = s.monitor := by rw [s₁_eq]
  have sas : s₁.sasThreadId = s.sasThreadId := by rw [s₁_eq]
  rw [← s₁_eq]
  refine ⟨?_, ?_, ?_, ?_⟩
  · refine h.places.frame ?_ ?_ ?_ ?_ ?_ ?_ ?_ ?_ ?_ (by rw [header]; exact id)
    · exact heads_congr kept (by rw [s₁_eq]) (by rw [s₁_eq]) (by rw [s₁_eq]; rfl) (by rw [s₁_eq]; rfl)
    all_goals
      rw [s₁_eq]
    · exact fun _ _ _ => rfl
    · rfl
    · exact h.places.live
    · exact h.places.ready
  · have c := h.control
    refine ⟨?_, ?_, ?_, ?_, ?_, ?_, ?_, ?_, ?_, ?_, ?_, ?_, ?_, ?_, ?_⟩
    · intro u busy
      rw [pc] at busy
      have elsewhere : u ≠ t := by
        rintro rfl
        exact busy idle
      rw [slot u elsewhere]
      exact c.running u busy
    · intro u used
      by_cases here : u = t
      · rwa [here]
      · rw [slot u here] at used
        exact c.registered u used
    · rw [header, sas]
      exact c.header
    · rw [header, sas, pc]
      exact c.taking
    · rw [pc, s₁_eq]
      exact c.empty
    · rw [pc, header]
      exact c.owning
    · rw [header, s₁_eq]
      exact c.blank
    · intro u k x mem
      have elsewhere : u ≠ t := by
        rintro rfl
        rw [none.1] at mem
        exact List.not_mem_nil mem
      rw [pages u elsewhere] at mem
      rw [header, monitor, slot u elsewhere]
      exact c.pages u k x mem
    · intro u x mem
      have elsewhere : u ≠ t := by
        rintro rfl
        rw [none.2] at mem
        exact List.not_mem_nil mem
      rw [freePage u elsewhere] at mem
      rw [header, monitor, slot u elsewhere]
      exact c.freePage u x mem
    · intro u at_u
      rw [monitor] at at_u
      have stopped := c.stopped u at_u
      have elsewhere : u ≠ t := by
        rintro rfl
        rw [stopped] at free
        cases free
      rw [slot u elsewhere, stopped]
    · rw [monitor, header]
      exact c.worklist
    · rw [monitor, sas]
      exact c.clearing
    · rw [monitor, sas, header]
      exact c.releasing
    · rw [monitor, sas, header, pc, slot _ other]
      exact c.looping
    · rw [monitor, header]
      exact c.looped
  · intro kept'
    rw [kept] at kept'
    refine (h.owned kept').keep header (by rw [s₁_eq]) (by rw [s₁_eq]) (by rw [s₁_eq]) (by rw [s₁_eq])
      (pages _ other) (freePage _ other) (fun _ => Iff.rfl) (fun _ => Iff.rfl) (h.owned kept').suits
      (by rw [pc]) (by rw [pc]; exact id) (by rw [pc]; exact (h.owned kept').todo)
  · intro gone
    rw [kept] at gone
    have r := h.remains gone
    refine ⟨?_, ?_, ?_, ?_, ?_⟩
    · rw [s₁_eq]
      exact r.recorded
    · rw [monitor, header, s₁_eq]
      exact r.ahead
    · rw [header, slot _ other]
      intro stopped b at_b
      have queued := r.queued stopped b at_b
      rw [State.objectPages, pages _ other]
      exact queued
    · rw [header, slot _ other, pages _ other]
      exact r.apart
    · rw [header, slot _ other, s₁_eq]
      exact r.head

/-- The monitor is not at this segment. -/
theorem ahead_elsewhere {m : Monitor} {owner : ℕ} {state : SegmentState} (other : m.slot ≠ some owner)
    (looping : ¬ m.Looping) : m.Ahead owner state b := by
  cases m with
  | idle | sweep t | memset t b | loadThreadId t b | load t b | storeNext t b info | cas t b info
  | abandon t rest | release t | freeTls t | loopStoreInfo | loopRelease => trivial
  | page t rest | scan t p blocks rest | clearPage t p rest | segment t =>
    rintro rfl
    exact absurd rfl other
  | clearSegment t =>
    rintro rfl
    exact other rfl
  | loopPage rest | loopScan p blocks rest | loopClearPage p rest | loopClearSegment =>
    exact absurd trivial looping

/-- What an object in use says about its page. -/
theorem bin_of_object (h : Inv g bin place s) (kept : s.Kept) (object : place b = .object) :
    ∃ i, 3 ≤ i ∧ i < cxlBinSize ∧ bin (cxlPtrPage b) = some i ∧ InPage (cxlPtrPage b) i b ∧
      cxlPtrPage b ∈ s.pages s.segmentThreadId i := by
  have owned := h.owned kept
  obtain ⟨i, in_bin, inPage⟩ := (owned.block b).1 (by simp [object])
  have suits := owned.suits b
  rw [object, in_bin] at suits
  obtain ⟨k, low, same⟩ : ∃ k, 3 ≤ k ∧ some i = some k := suits
  obtain rfl := Option.some.inj same
  obtain ⟨isPage, -, ⟨few, -⟩, -⟩ := owned.page _ _ in_bin
  refine ⟨i, low, few, in_bin, inPage, (owned.queue _ _).2 ⟨in_bin, ?_⟩⟩
  intro moving
  have used : s.used (cxlPtrPage b) = 0 := by
    have todo := owned.todo
    cases at_pc : s.pc s.segmentThreadId with
    | pushPage k page =>
      rw [at_pc] at todo moving
      obtain rfl := Option.some.inj moving
      exact todo.2
    | clearPage page =>
      rw [at_pc] at todo moving
      obtain rfl := Option.some.inj moving
      exact todo.2
    | _ =>
      rw [at_pc] at moving
      cases moving
  have counted := countAt_pos (p := Place.Counted) (f := place) (finite_page isPage) (a := b) rfl
    (by rw [object]; trivial)
  rw [← owned.used, used] at counted
  omega

/-- A client stops, or leaves. -/
theorem depart (h : Inv g bin place s) (slot : Slot) (pages : ℕ → ℕ → List ℕ)
    (freePage : ℕ → List ℕ) (running : s.slot t = .running) (out : slot ≠ .running)
    (others : ∀ u, u ≠ t → pages u = s.pages u ∧ freePage u = s.freePage u)
    (mine : slot = .stopped ∧ pages t = s.pages t ∧ freePage t = s.freePage t ∨
      slot = .free ∧ (∀ k, pages t k = []) ∧ freePage t = []) :
    ∃ place', Inv g bin place'
      ({ s with slot := update s.slot t slot, pages := pages, freePage := freePage }.setPc t .idle) := by
  have places := h.places.gone t pages freePage out
  obtain ⟨s₁, s₁_eq⟩ : ∃ s₁, s₁ = ({ s with
      slot := update s.slot t slot
      pages := pages
      freePage := freePage }.setPc t .idle : State) := ⟨_, rfl⟩
  rw [← s₁_eq] at places ⊢
  have c := h.control
  have first : t ≠ 0 := c.registered t (by simp [running])
  have slot_t : s₁.slot t = slot := by
    rw [s₁_eq]
    exact update_self _ _ _
  have slot_of : ∀ u, u ≠ t → s₁.slot u = s.slot u := by
    intro u elsewhere
    rw [s₁_eq]
    exact update_of_ne elsewhere _ _
  have pc_t : s₁.pc t = .idle := by
    rw [s₁_eq]
    exact update_self _ _ _
  have pc_of : ∀ u, u ≠ t → s₁.pc u = s.pc u := by
    intro u elsewhere
    rw [s₁_eq]
    exact update_of_ne elsewhere _ _
  have pages_eq : s₁.pages = pages := by rw [s₁_eq]; rfl
  have freePage_eq : s₁.freePage = freePage := by rw [s₁_eq]; rfl
  have header : s₁.segmentThreadId = s.segmentThreadId := by rw [s₁_eq]; rfl
  have monitor : s₁.monitor = s.monitor := by rw [s₁_eq]; rfl
  have sas : s₁.sasThreadId = s.sasThreadId := by rw [s₁_eq]; rfl
  have info : s₁.info = s.info := by rw [s₁_eq]; rfl
  have free : s₁.free = s.free := by rw [s₁_eq]; rfl
  have busy_of : ∀ u, s₁.pc u ≠ .idle → u ≠ t := by
    rintro u busy rfl
    exact busy pc_t
  have old_pages : ∀ u k x, x ∈ s₁.pages u k → x ∈ s.pages u k := by
    intro u k x mem
    rw [pages_eq] at mem
    by_cases here : u = t
    · subst here
      rcases mine with ⟨-, same, -⟩ | ⟨-, none, -⟩
      · rwa [same] at mem
      · rw [none] at mem
        exact absurd mem List.not_mem_nil
    · rwa [(others u here).1] at mem
  have old_freePage : ∀ u x, x ∈ s₁.freePage u → x ∈ s.freePage u := by
    intro u x mem
    rw [freePage_eq] at mem
    by_cases here : u = t
    · subst here
      rcases mine with ⟨-, -, same⟩ | ⟨-, -, none⟩
      · rwa [same] at mem
      · rw [none] at mem
        exact absurd mem List.not_mem_nil
    · rwa [(others u here).2] at mem
  have not_looping : s.segmentThreadId = t → ¬ s.monitor.Looping := by
    intro owner looping
    have gone := (c.looping looping).2.2 (by rwa [owner])
    rw [owner, running] at gone
    cases gone
  have control : Control s₁ := by
    refine ⟨?_, ?_, ?_, ?_, ?_, ?_, ?_, ?_, ?_, ?_, ?_, ?_, ?_, ?_, ?_⟩
    · intro u busy
      have elsewhere := busy_of u busy
      rw [pc_of u elsewhere] at busy
      rw [slot_of u elsewhere]
      exact c.running u busy
    · intro u used
      by_cases here : u = t
      · rwa [here]
      · rw [slot_of u here] at used
        exact c.registered u used
    · rw [header, sas]
      exact c.header
    · intro u taking
      have elsewhere := busy_of u (by rintro idle; rw [idle] at taking; exact taking)
      rw [pc_of u elsewhere] at taking
      rw [header, sas]
      exact c.taking u taking
    · intro u at_store
      have elsewhere := busy_of u (by rw [at_store]; simp)
      rw [pc_of u elsewhere] at at_store
      rw [info]
      exact c.empty u at_store
    · intro u owning
      have elsewhere := busy_of u (by rintro idle; rw [idle] at owning; exact owning)
      rw [pc_of u elsewhere] at owning
      rw [header]
      exact c.owning u owning
    · rw [header, s₁_eq]
      exact c.blank
    · intro u k x mem
      rw [header, monitor]
      refine ⟨?_, (c.pages u k x (old_pages u k x mem)).2⟩
      by_cases here : u = t
      · subst here
        rw [slot_t]
        rcases mine with ⟨at_stop, -⟩ | ⟨-, none, -⟩
        · simp [at_stop]
        · rw [pages_eq, none] at mem
          exact absurd mem List.not_mem_nil
      · rw [slot_of u here]
        exact (c.pages u k x (old_pages u k x mem)).1
    · intro u x mem
      rw [header, monitor]
      refine ⟨?_, (c.freePage u x (old_freePage u x mem)).2⟩
      by_cases here : u = t
      · subst here
        rw [slot_t]
        rcases mine with ⟨at_stop, -⟩ | ⟨-, -, none⟩
        · simp [at_stop]
        · rw [freePage_eq, none] at mem
          exact absurd mem List.not_mem_nil
      · rw [slot_of u here]
        exact (c.freePage u x (old_freePage u x mem)).1
    · intro u at_u
      rw [monitor] at at_u
      have stopped := c.stopped u at_u
      have elsewhere : u ≠ t := by
        rintro rfl
        rw [running] at stopped
        cases stopped
      rw [slot_of u elsewhere, stopped]
    · rw [monitor, header]
      exact c.worklist
    · rw [monitor, sas]
      exact c.clearing
    · rw [monitor, sas, header]
      exact c.releasing
    · intro looping
      rw [monitor] at looping
      have other : s.segmentThreadId ≠ t := fun owner => not_looping owner looping
      obtain ⟨taken, none, gone⟩ := c.looping looping
      rw [sas, header, slot_of _ other]
      refine ⟨taken, fun u taking => ?_, gone⟩
      have elsewhere := busy_of u (by rintro idle; rw [idle] at taking; exact taking)
      rw [pc_of u elsewhere] at taking
      exact none u taking
    · rw [monitor, header]
      exact c.looped
  refine ⟨_, places, control, ?_, ?_⟩
  · intro kept
    have other : s.segmentThreadId ≠ t := by
      intro owner
      rw [State.Kept, header, owner, slot_t] at kept
      exact out kept
    have kept' : s.Kept := by
      rw [State.Kept, header, slot_of _ other] at kept
      exact kept
    simp only [other, decide_false] at places ⊢
    obtain ⟨same_pages, same_free⟩ := others _ other
    refine (h.owned kept').keep header (by rw [s₁_eq]; rfl) (by rw [s₁_eq]; rfl) (by rw [s₁_eq]; rfl)
      (by rw [s₁_eq]; rfl) (by rw [pages_eq, same_pages]) (by rw [freePage_eq, same_free]) ?_ ?_ ?_
      (by rw [pc_of _ other]) (by rw [pc_of _ other]; exact id)
      (by rw [pc_of _ other]; exact (h.owned kept').todo)
    · intro b
      rcases place b with _ | (_ | _ | _ | _) | o | _ | _ | _ <;> simp [Place.gone]
      split <;> simp
    · intro b
      rcases place b with _ | (_ | _ | _ | _) | o | _ | _ | _ <;> simp [Place.gone]
      split <;> exact Iff.rfl
    · intro b
      have suits := (h.owned kept').suits b
      rcases at_b : place b with _ | (_ | _ | _ | _) | o | _ | _ | _ <;> rw [at_b] at suits <;>
        simp only [Place.gone, Bool.false_eq_true, if_false] <;> first
        | exact suits
        | trivial
        | (split <;> trivial)
  · intro gone
    by_cases owner : s.segmentThreadId = t
    · have kept : s.Kept := Control.kept_of_owner running owner
      have owned := h.owned kept
      have stopped : s₁.slot s₁.segmentThreadId = .stopped → slot = .stopped := by
        rw [header, owner, slot_t]
        exact id
      refine ⟨?_, ?_, ?_, ?_, ?_⟩
      · intro b at_b
        rw [gone_eq_object] at at_b
        obtain ⟨i, low, few, in_bin, inPage, -⟩ := h.bin_of_object kept at_b
        obtain ⟨isPage, segment, -, size, msg⟩ := owned.page _ _ in_bin
        have same_size : s₁.blockSize = s.blockSize := by rw [s₁_eq]; rfl
        have same_msg : s₁.isMsgQueuePage = s.isMsgQueuePage := by rw [s₁_eq]; rfl
        refine ⟨mem_segmentPages.2 ⟨isPage, segment⟩, ?_, ?_⟩
        · rw [same_msg, msg, decide_eq_false (by omega)]
        · rw [same_size, size]
          exact mem_blocksFrom.2 inPage.at_index
      · intro b _
        rw [monitor, header]
        refine ahead_elsewhere ?_ (not_looping owner)
        intro at_t
        have was := c.stopped _ at_t
        rw [owner, running] at was
        cases was
      · intro at_stop b at_b
        rw [gone_eq_object] at at_b
        obtain ⟨i, low, few, -, -, mem⟩ := h.bin_of_object kept at_b
        rcases mine with ⟨-, same, -⟩ | ⟨free, -⟩
        · refine mem_objectPages.2 ⟨i, by omega, few, ?_⟩
          rw [pages_eq, header, owner, same, ← owner]
          exact mem
        · rw [stopped at_stop] at free
          cases free
      · intro at_stop b at_b mem
        rw [gone_eq_object] at at_b
        obtain ⟨i, low, few, in_bin, -⟩ := h.bin_of_object kept at_b
        have old := old_pages _ _ _ mem
        rw [header, owned.queue, in_bin] at old
        have zero := Option.some.inj old.1
        omega
      · intro _ page at_b
        rw [gone_eq_object, free] at at_b
        have some := h.places.nonzero _ (by simp [at_b] : place (s.free page) ≠ .outside)
        have head : s.heads (.free page) = s.free page := by
          rw [heads_of_kept kept]
          rfl
        have listed := h.places.lists.place_head (q := .free page) (by rwa [head])
        rw [head, stack_eq_some, at_b] at listed
        cases listed
    · have gone' : ¬ s.Kept := by
        rw [State.Kept, header, slot_of _ owner] at gone
        exact gone
      have r := h.remains gone'
      obtain ⟨same_pages, -⟩ := others _ owner
      have slot_eq := slot_of _ owner
      refine ⟨?_, ?_, ?_, ?_, ?_⟩
      · intro b at_b
        rw [gone_eq_object] at at_b
        rw [s₁_eq]
        exact r.recorded b at_b
      · intro b at_b
        rw [gone_eq_object] at at_b
        rw [monitor, header, info]
        exact r.ahead b at_b
      · intro at_stop b at_b
        rw [header, slot_eq] at at_stop
        rw [gone_eq_object] at at_b
        have queued := r.queued at_stop b at_b
        rw [State.objectPages, header, pages_eq, same_pages]
        exact queued
      · intro at_stop b at_b
        rw [header, slot_eq] at at_stop
        rw [gone_eq_object] at at_b
        rw [header, pages_eq, same_pages]
        exact r.apart at_stop b at_b
      · intro at_stop page
        rw [header, slot_eq] at at_stop
        rw [ne_eq, gone_eq_object, free]
        exact r.head at_stop page

/-! ## The segment is taken -/

/-- What a client that is taking the segment knows. -/
theorem not_stopped (h : Control s) (running : s.slot t = .running) {u : ℕ}
    (at_u : s.monitor.slot = some u) : u ≠ t := by
  rintro rfl
  rw [h.stopped u at_u] at running
  cases running

theorem acquire (h : Inv g bin place s) (ready : s.Ready t) (free : s.sasThreadId = 0) :
    Inv g bin place
      ({ s with sasThreadId := t, generation := s.generation + 1 }.setPc t .storeInfo) := by
  obtain ⟨running, idle⟩ := ready
  have c := h.control
  have first : t ≠ 0 := c.registered t (by simp [running])
  have none : s.segmentThreadId = 0 := by
    by_contra owned
    exact owned ((c.header owned).symm.trans free)
  have outside := h.places.blank none
  have no_taking : ∀ u, ¬ (s.pc u).Taking := by
    intro u taking
    have busy : s.pc u ≠ .idle := by
      intro idle
      rw [idle] at taking
      exact taking
    have first_u : u ≠ 0 := c.registered u (by simp [c.running u busy])
    exact first_u ((c.taking u taking).1.symm.trans free)
  have busy_of : ∀ u, u ≠ t → update s.pc t .storeInfo u = s.pc u := fun u other =>
    update_of_ne other _ _
  refine blank ?_ ?_ none
  · refine Places.blank_of outside ?_ (h.places.blank_object outside) (h.places.blank_rootOf outside) ?_
    · intro q
      have same : ({ s with sasThreadId := t, generation := s.generation + 1 }.setPc t .storeInfo :
          State).heads = s.heads := by
        refine heads_setPc _ ?_
        show Pc.tail _ = (s.pc t).tail
        rw [idle]
        rfl
      rw [same]
      exact h.places.blank_heads outside q
    · intro o
      have same : ({ s with sasThreadId := t, generation := s.generation + 1 }.setPc t .storeInfo :
          State).held = s.held := by
        refine held_setPc_same _ ?_
        show Pc.held _ = (s.pc t).held
        rw [idle]
        rfl
      rw [same]
      exact h.places.blank_held outside o
  · refine ⟨?_, c.registered, fun owned => absurd none owned, ?_, ?_, ?_, c.blank, c.pages, c.freePage,
      c.stopped, c.worklist, ?_, ?_, ?_, c.looped⟩
    · intro u busy
      by_cases here : u = t
      · rw [here]
        exact running
      · exact c.running u (by rw [← busy_of u here]; exact busy)
    · intro u taking
      by_cases here : u = t
      · exact ⟨here.symm, none⟩
      · exact absurd (by rw [← busy_of u here]; exact taking) (no_taking u)
    · intro u at_store
      have at_u : update s.pc t .storeInfo u = .storeThreadId := at_store
      by_cases here : u = t
      · rw [here, update_self] at at_u
        cases at_u
      · rw [busy_of u here] at at_u
        exact absurd (by rw [at_u]; trivial) (no_taking u)
    · intro u owning
      have at_u : (update s.pc t .storeInfo u).Owning := owning
      by_cases here : u = t
      · rw [here, update_self] at at_u
        exact at_u.elim
      · rw [busy_of u here] at at_u
        exact c.owning u at_u
    · intro u clearing
      have first_u : u ≠ 0 := by
        apply c.registered
        rw [c.stopped u (by rw [show s.monitor = .clearSegment u from clearing]; rfl)]
        simp
      exact absurd ((c.clearing u clearing).symm.trans free) first_u
    · intro u releasing
      have first_u : u ≠ 0 := by
        apply c.registered
        rw [c.stopped u (by rw [show s.monitor = .release u from releasing]; rfl)]
        simp
      exact absurd ((c.releasing u releasing).1.symm.trans free) first_u
    · intro looping
      exact absurd free (c.looping looping).1

theorem storeInfo (h : Inv g bin place s) (at_pc : s.pc t = .storeInfo) :
    Inv g bin place ({ s with info := ⟨.normal, 0⟩ }.setPc t .storeThreadId) := by
  have c := h.control
  have running := c.running t (by simp [at_pc])
  obtain ⟨mine, none⟩ := c.taking t (by rw [at_pc]; trivial)
  have outside := h.places.blank none
  have of_other : ∀ u, u ≠ t → update s.pc t .storeThreadId u = s.pc u := fun u other =>
    update_of_ne other _ _
  refine blank ?_ ?_ none
  · refine h.places.frame ?_ (fun _ _ _ => rfl) rfl rfl ?_ h.places.live ?_ rfl rfl id
    · have chain : ({ s with info := ⟨.normal, 0⟩ }.setPc t .storeThreadId : State).chain = s.chain := by
        rw [State.chain, State.chain, if_pos none]
        exact if_pos none
      refine heads_congr Iff.rfl rfl rfl chain ?_
      refine tail_setPc _ ?_
      show Pc.tail _ = (s.pc t).tail
      rw [at_pc]
      rfl
    · refine held_setPc_same _ ?_
      show Pc.held _ = (s.pc t).held
      rw [at_pc]
      rfl
    · intro o b x at_cas
      have inside := State.linked_held at_cas
      rw [linked_setPc] at at_cas
      by_cases here : o = some t
      · rw [here, update_self] at at_cas
        cases at_cas
      · rw [update_of_ne here] at at_cas
        exact h.places.ready o b x at_cas
  · refine ⟨?_, c.registered, c.header, ?_, fun _ _ => rfl, ?_, c.blank, c.pages, c.freePage, c.stopped,
      c.worklist, c.clearing, c.releasing, ?_, c.looped⟩
    · intro u busy
      by_cases here : u = t
      · rw [here]
        exact running
      · exact c.running u (by rw [← of_other u here]; exact busy)
    · intro u taking
      by_cases here : u = t
      · rw [here]
        exact ⟨mine, none⟩
      · exact c.taking u (by rw [← of_other u here]; exact taking)
    · intro u owning
      have at_u : (update s.pc t .storeThreadId u).Owning := owning
      by_cases here : u = t
      · rw [here, update_self] at at_u
        exact at_u.elim
      · rw [of_other u here] at at_u
        exact c.owning u at_u
    · intro looping
      exact absurd (by rw [at_pc]; trivial) ((c.looping looping).2.1 t)

/-- The header names its owner, who finds a segment that nothing is in. -/
theorem storeThreadId (h : Inv g bin place s) (at_pc : s.pc t = .storeThreadId) :
    Inv g (fun _ => none) place ({ s with segmentThreadId := t }.setPc t .pushFreePages) := by
  have c := h.control
  have running := c.running t (by simp [at_pc])
  have first : t ≠ 0 := c.registered t (by simp [running])
  have taking : (s.pc t).Taking := by rw [at_pc]; trivial
  obtain ⟨mine, none⟩ := c.taking t taking
  have outside := h.places.blank none
  have chain := c.empty t at_pc
  obtain ⟨segmentUsed, records⟩ := c.blank none
  obtain ⟨s₁, s₁_eq⟩ : ∃ s₁, s₁ = ({ s with segmentThreadId := t }.setPc t .pushFreePages : State) :=
    ⟨_, rfl⟩
  have header : s₁.segmentThreadId = t := by rw [s₁_eq]; rfl
  have pc_t : s₁.pc t = .pushFreePages := by
    rw [s₁_eq]
    exact update_self _ _ _
  have pc_of : ∀ u, u ≠ t → s₁.pc u = s.pc u := by
    intro u other
    rw [s₁_eq]
    exact update_of_ne other _ _
  have slot : s₁.slot = s.slot := by rw [s₁_eq]; rfl
  have monitor : s₁.monitor = s.monitor := by rw [s₁_eq]; rfl
  have sas : s₁.sasThreadId = s.sasThreadId := by rw [s₁_eq]; rfl
  have pages : s₁.pages = s.pages := by rw [s₁_eq]; rfl
  have freePage : s₁.freePage = s.freePage := by rw [s₁_eq]; rfl
  have kept : s₁.Kept := by
    rw [State.Kept, header, slot]
    exact running
  have mem_pages : ∀ u k x, x ∈ s.pages u k → u ≠ t ∧ s.monitor.leaving = some u := by
    intro u k x mem
    obtain ⟨used, owner | leaving⟩ := c.pages u k x mem
    · exact absurd (owner.symm.trans none) (c.registered u used)
    · exact ⟨not_stopped c running (Control.leaving_slot leaving), leaving⟩
  have mem_freePage : ∀ u x, x ∈ s.freePage u → u ≠ t ∧ s.monitor.leaving = some u := by
    intro u x mem
    obtain ⟨used, owner | leaving⟩ := c.freePage u x mem
    · exact absurd (owner.symm.trans none) (c.registered u used)
    · exact ⟨not_stopped c running (Control.leaving_slot leaving), leaving⟩
  rw [← s₁_eq]
  refine ⟨?_, ?_, ?_, fun gone => absurd kept gone⟩
  · refine Places.blank_of outside ?_ ?_ ?_ ?_
    · rw [heads_of_kept kept]
      have tail : s₁.tail = 0 := by
        rw [State.tail, header, pc_t]
        rfl
      have chain' : s₁.chain = 0 := by
        rw [State.chain, header, if_neg first, s₁_eq]
        exact chain
      intro q
      cases q with
      | free page =>
        rw [s₁_eq]
        exact (records page).2.1
      | localFree page =>
        rw [s₁_eq]
        exact (records page).2.2
      | threadFree => exact chain'
      | detached => exact tail
    · rw [s₁_eq]
      exact h.places.blank_object outside
    · rw [s₁_eq]
      exact h.places.blank_rootOf outside
    · intro o
      have same : s₁.held = s.held := by
        rw [s₁_eq]
        refine held_setPc_same _ ?_
        show Pc.held _ = (s.pc t).held
        rw [at_pc]
        rfl
      rw [same]
      exact h.places.blank_held outside o
  · refine ⟨?_, ?_, ?_, ?_, ?_, ?_, ?_, ?_, ?_, ?_, ?_, ?_, ?_, ?_, ?_⟩
    · intro u busy
      rw [slot]
      by_cases here : u = t
      · rwa [here]
      · rw [pc_of u here] at busy
        exact c.running u busy
    · rw [slot]
      exact c.registered
    · intro _
      rw [sas, header]
      exact mine
    · intro u taking_u
      by_cases here : u = t
      · rw [here, pc_t] at taking_u
        exact taking_u.elim
      · rw [pc_of u here] at taking_u
        exact absurd ((c.taking u taking_u).1.symm.trans mine) here
    · intro u at_store
      by_cases here : u = t
      · rw [here, pc_t] at at_store
        cases at_store
      · rw [pc_of u here] at at_store
        rw [s₁_eq]
        exact c.empty u at_store
    · intro u owning
      by_cases here : u = t
      · rw [here, header]
      · rw [pc_of u here] at owning
        have busy : s.pc u ≠ .idle := by
          intro idle
          rw [idle] at owning
          exact owning
        have first_u : u ≠ 0 := c.registered u (by simp [c.running u busy])
        exact absurd ((c.owning u owning).symm.trans none) first_u
    · intro zero
      exact absurd (header.symm.trans zero) first
    · intro u k x mem
      rw [pages] at mem
      rw [monitor, slot]
      exact ⟨(c.pages u k x mem).1, .inr (mem_pages u k x mem).2⟩
    · intro u x mem
      rw [freePage] at mem
      rw [monitor, slot]
      exact ⟨(c.freePage u x mem).1, .inr (mem_freePage u x mem).2⟩
    · rw [monitor, slot]
      exact c.stopped
    · intro u x at_u mem
      rw [monitor] at at_u mem
      have first_u : u ≠ 0 := c.registered u (by simp [c.stopped u at_u])
      exact absurd ((c.worklist u x at_u mem).symm.trans none) first_u
    · rw [monitor, sas]
      exact c.clearing
    · intro u releasing
      rw [monitor] at releasing
      have at_u : s.monitor.slot = some u := by rw [releasing]; rfl
      exact absurd ((c.releasing u releasing).1.symm.trans mine) (not_stopped c running at_u)
    · intro looping
      rw [monitor] at looping
      exact absurd taking ((c.looping looping).2.1 t)
    · intro looped
      rw [monitor] at looped
      have looping : s.monitor.Looping := by
        rcases looped with at_loop | at_loop <;> rw [at_loop] <;> trivial
      exact absurd taking ((c.looping looping).2.1 t)
  · intro _
    have no_pages : ∀ k x, x ∉ s₁.pages s₁.segmentThreadId k := by
      intro k x mem
      rw [pages, header] at mem
      exact (mem_pages t k x mem).1 rfl
    have no_freePage : s₁.freePage s₁.segmentThreadId = [] := by
      rw [freePage, header, List.eq_nil_iff_forall_not_mem]
      intro x mem
      exact (mem_freePage t x mem).1 rfl
    refine ⟨?_, ?_, ?_, ?_, ?_, ?_, ?_, ?_, ?_, fun _ => no_freePage, ?_⟩
    · rintro x k ⟨⟩
    · intro b
      rw [outside]
      simp
    · intro b
      rw [outside]
      trivial
    · intro x
      have used : s₁.used = s.used := by rw [s₁_eq]; rfl
      rw [used, (records x).1, countAt_eq_zero]
      intro b _
      rw [outside]
      exact id
    · intro x k
      exact iff_of_false (no_pages k x) (by simp)
    · intro k
      rw [List.eq_nil_iff_forall_not_mem.2 (no_pages k)]
      exact List.nodup_nil
    · have same : s₁.segmentUsed = s.segmentUsed := by rw [s₁_eq]; rfl
      rw [same, segmentUsed, countAt_eq_zero]
      intro x _
      exact not_taken_none
    · rw [no_freePage]
      intro x mem
      exact absurd mem List.not_mem_nil
    · rw [no_freePage]
      exact List.nodup_nil
    · rw [header, pc_t]
      exact fun _ => rfl

/-! ## The segment is given back by its owner -/

theorem clearSegment (h : Inv g bin place s) (at_pc : s.pc t = .clearSegment) :
    (∀ b, place b = .outside) ∧
      Inv g bin place
        ({ s.clearHeader with freePage := update s.freePage t [] }.setPc t .releaseSegment) := by
  have c := h.control
  have owning : (s.pc t).Owning := by rw [at_pc]; trivial
  have running := c.running t (by simp [at_pc])
  have owner := c.owning t owning
  have kept := c.kept_of_owning owning
  have owned := h.owned kept
  have todo := h.todo_of_owning owning
  rw [at_pc] at todo
  have outside : ∀ b, place b = .outside := by
    intro b
    by_contra inside
    obtain ⟨i, in_bin, -⟩ := (owned.block b).1 inside
    rw [todo] at in_bin
    cases in_bin
  refine ⟨outside, ?_⟩
  have first : s.segmentThreadId ≠ 0 := c.owned_of_kept kept
  have mine : s.sasThreadId = t := (c.header first).trans owner
  obtain ⟨s₁, s₁_eq⟩ : ∃ s₁, s₁ =
    ({ s.clearHeader with freePage := update s.freePage t [] }.setPc t .releaseSegment : State) :=
      ⟨_, rfl⟩
  have header : s₁.segmentThreadId = 0 := by rw [s₁_eq]; rfl
  have pc_t : s₁.pc t = .releaseSegment := by
    rw [s₁_eq]
    exact update_self _ _ _
  have pc_of : ∀ u, u ≠ t → s₁.pc u = s.pc u := by
    intro u other
    rw [s₁_eq]
    exact update_of_ne other _ _
  have slot : s₁.slot = s.slot := by rw [s₁_eq]; rfl
  have monitor : s₁.monitor = s.monitor := by rw [s₁_eq]; rfl
  have sas : s₁.sasThreadId = s.sasThreadId := by rw [s₁_eq]; rfl
  have not_looping : ¬ s.monitor.Looping := by
    intro looping
    have gone := (c.looping looping).2.2 first
    rw [State.Kept, gone] at kept
    cases kept
  rw [← s₁_eq]
  refine blank ?_ ?_ header
  · refine Places.blank_of outside ?_ ?_ ?_ ?_
    · have gone : ¬ s₁.Kept := by
        rw [State.Kept, header, slot, slot_zero c]
        simp
      rw [heads_of_not_kept gone]
      have tail : s₁.tail = 0 := by
        have idle : s.pc 0 = .idle := by
          by_contra busy
          exact absurd (c.running 0 busy) (by rw [slot_zero c]; simp)
        rw [State.tail, header, pc_of 0 (by rw [← owner]; exact first.symm), idle]
        rfl
      have chain : s₁.chain = 0 := by
        rw [State.chain, header, if_pos rfl]
      intro q
      cases q with
      | free page | localFree page => rfl
      | threadFree => exact chain
      | detached => exact tail
    · rw [s₁_eq]
      exact h.places.blank_object outside
    · rw [s₁_eq]
      intro b
      rfl
    · intro o
      have same : s₁.held = s.held := by
        rw [s₁_eq]
        refine held_setPc_same _ ?_
        show Pc.held _ = (s.pc t).held
        rw [at_pc]
        rfl
      rw [same]
      exact h.places.blank_held outside o
  · have others : ∀ u, u ≠ t → ¬ (s.pc u).Taking := by
      intro u other taking
      exact first (c.taking u taking).2
    refine ⟨?_, ?_, fun some => absurd header some, ?_, ?_, ?_, ?_, ?_, ?_, ?_, ?_, ?_, ?_, ?_, ?_⟩
    · intro u busy
      rw [slot]
      by_cases here : u = t
      · rwa [here]
      · rw [pc_of u here] at busy
        exact c.running u busy
    · rw [slot]
      exact c.registered
    · intro u taking
      by_cases here : u = t
      · rw [here, sas]
        exact ⟨mine, header⟩
      · rw [pc_of u here] at taking
        exact absurd taking (others u here)
    · intro u at_store
      by_cases here : u = t
      · rw [here, pc_t] at at_store
        cases at_store
      · rw [pc_of u here] at at_store
        exact absurd (by rw [at_store]; trivial) (others u here)
    · intro u owning_u
      by_cases here : u = t
      · rw [here, pc_t] at owning_u
        exact owning_u.elim
      · rw [pc_of u here] at owning_u
        exact absurd ((c.owning u owning_u).symm.trans owner) here
    · intro _
      rw [s₁_eq]
      exact ⟨rfl, fun _ => ⟨rfl, rfl, rfl⟩⟩
    · intro u k x mem
      have old : x ∈ s.pages u k := by
        rw [s₁_eq] at mem
        exact mem
      obtain ⟨used, named | leaving⟩ := c.pages u k x old
      · rw [← named, owned.queue, todo] at old
        cases old.1
      · rw [monitor, slot]
        exact ⟨used, .inr leaving⟩
    · intro u x mem
      have old : x ∈ update s.freePage t [] u := by
        rw [s₁_eq] at mem
        exact mem
      have other : u ≠ t := by
        rintro rfl
        rw [update_self] at old
        exact List.not_mem_nil old
      rw [update_of_ne other] at old
      obtain ⟨used, named | leaving⟩ := c.freePage u x old
      · exact absurd (named.symm.trans owner) other
      · rw [monitor, slot]
        exact ⟨used, .inr leaving⟩
    · rw [monitor, slot]
      exact c.stopped
    · intro u x at_u mem
      rw [monitor] at at_u mem
      exact absurd ((c.worklist u x at_u mem).symm.trans owner) (not_stopped c running at_u)
    · rw [monitor, sas]
      exact c.clearing
    · intro u releasing
      rw [monitor] at releasing
      exact absurd (c.releasing u releasing).2 first
    · rw [monitor]
      exact fun looping => absurd looping not_looping
    · intro _
      exact header

theorem releaseSegment (h : Inv g bin place s) (at_pc : s.pc t = .releaseSegment) :
    s.sasThreadId = t ∧ Inv g bin place ({ s with sasThreadId := 0 }.setPc t .idle) := by
  have c := h.control
  have running := c.running t (by simp [at_pc])
  have taking : (s.pc t).Taking := by rw [at_pc]; trivial
  obtain ⟨mine, none⟩ := c.taking t taking
  refine ⟨mine, ?_⟩
  have of_other : ∀ u, u ≠ t → update s.pc t .idle u = s.pc u := fun u other =>
    update_of_ne other _ _
  have elsewhere : ∀ u, update s.pc t .idle u ≠ .idle → u ≠ t := by
    rintro u busy rfl
    exact busy (update_self _ _ _)
  have others : ∀ u, u ≠ t → ¬ (s.pc u).Taking := by
    intro u other taking_u
    exact other ((c.taking u taking_u).1.symm.trans mine)
  have no_taking : ∀ u, ¬ (update s.pc t .idle u).Taking := by
    intro u taking_u
    have other := elsewhere u (by rintro idle; rw [idle] at taking_u; exact taking_u)
    rw [of_other u other] at taking_u
    exact others u other taking_u
  refine blank ?_ ?_ none
  · have places := h.places.setPc (t := t) (p := .idle) (by rw [at_pc]; rfl) (by rw [at_pc]; rfl)
      (by rintro x y ⟨⟩)
    exact places.frame rfl (fun _ _ _ => rfl) rfl rfl rfl places.live places.ready rfl rfl id
  · refine ⟨?_, c.registered, fun owned => absurd none owned, fun u taking_u => absurd taking_u (no_taking u),
      ?_, ?_, c.blank, c.pages, c.freePage, c.stopped, c.worklist, ?_, ?_, ?_, c.looped⟩
    · intro u busy
      have other := elsewhere u busy
      exact c.running u (by rw [← of_other u other]; exact busy)
    · intro u at_store
      have at_u : update s.pc t .idle u = .storeThreadId := at_store
      exact absurd (by rw [at_u]; trivial) (no_taking u)
    · intro u owning
      have at_u : (update s.pc t .idle u).Owning := owning
      have other := elsewhere u (by rintro idle; rw [idle] at at_u; exact at_u)
      rw [of_other u other] at at_u
      exact c.owning u at_u
    · intro u clearing
      have at_u : s.monitor.slot = some u := by
        rw [show s.monitor = .clearSegment u from clearing]
        rfl
      exact absurd ((c.clearing u clearing).symm.trans mine) (not_stopped c running at_u)
    · intro u releasing
      have at_u : s.monitor.slot = some u := by
        rw [show s.monitor = .release u from releasing]
        rfl
      exact absurd ((c.releasing u releasing).1.symm.trans mine) (not_stopped c running at_u)
    · intro looping
      exact absurd taking ((c.looping looping).2.1 t)

end Inv

end CxlShm.Handover
